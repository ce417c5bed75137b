/-
  Lineage.Proofs.Program.StmtChecks

  Statements are right for their shapes, and so is the program of a script.

  A statement is right wherever the shape of its place agrees with its site
  (`Site.Agrees`): the loop around it goes on and ends in shapes of its own, which a
  `break` or `continue` reaches by cutting the stack and closing scopes.
-/
import Lineage.Proofs.Program.ExprChecks
import Lineage.Proofs.Program.StatementPlacement
import Lineage.Proofs.Program.StmtShapes

namespace Lineage

/-- The loop around a statement goes on, and ends, in shapes that can be reached from inside. -/
structure Site.Agrees (s : Site) (S : List Shape) (height : Nat) (scopes : List Nat) : Prop where
  height_eq : s.height = height
  scopes_eq : s.scopes = scopes.length
  loops : ∀ loop, s.loop = some loop → ∃ outer, outer <:+ scopes ∧ loop.scopes = outer.length ∧
    S[loop.continueAt]? = some (.plain loop.continueHeight outer) ∧ loop.continueHeight ≤ height ∧
    S[loop.breakAt]? = some (.plain loop.breakHeight outer) ∧ loop.breakHeight ≤ height

/-- In the body of a loop. -/
theorem Site.Agrees.inLoop {S : List Shape} {s : Site} {height : Nat} {scopes : List Nat}
    (h : s.Agrees S height scopes) {kept top finish : Nat}
    (htop : S[top]? = some (.plain (height + kept) scopes))
    (hfinish : S[finish]? = some (.plain height scopes)) :
    (s.inLoop kept top finish).Agrees S (height + kept) scopes where
  height_eq := by rw [← h.height_eq]; rfl
  scopes_eq := h.scopes_eq
  loops := by
    intro loop hloop
    cases hloop
    refine ⟨scopes, List.suffix_refl _, h.scopes_eq, ?_, ?_, ?_, ?_⟩
    · rw [htop, h.height_eq]
    · exact Nat.le_of_eq (by rw [h.height_eq])
    · rw [hfinish, h.height_eq]
    · exact Nat.le_trans (Nat.le_of_eq h.height_eq) (Nat.le_add_right _ _)

/-- In the body of a `try` statement. -/
theorem Site.Agrees.inTry {S : List Shape} {s : Site} {height : Nat} {scopes : List Nat}
    (h : s.Agrees S height scopes) : s.inTry.Agrees S height (height :: scopes) where
  height_eq := h.height_eq
  scopes_eq := congrArg (· + 1) h.scopes_eq
  loops := by
    intro loop hloop
    obtain ⟨outer, hsuffix, hrest⟩ := h.loops loop hloop
    exact ⟨outer, hsuffix.trans (List.suffix_cons _ _), hrest⟩

namespace Script

section

variable {p : Program} {S : List Shape} {C : Value → Prop}

/-! ## Handlers -/

theorem codes_sits {codes : Codes} (hall : codes.All C p.HasVariable) {i j : Nat}
    (hat : Codes.At p codes i j) {σ : Shape} (hσ : σ.Bears 0) (hlaid : Laid S i (codesShapes σ codes))
    (hexit : S[j]? = some (σ.up 1)) : Sits p S i j := by
  cases codes with
  | any =>
    obtain ⟨hop, rfl⟩ := hat
    exact Sits.one hop hlaid.1 (.next rfl trivial trivial hσ hexit)
  | listed codes => exact args_sits codes hall hat hσ hlaid hexit

/-- Preparing handlers that start over the shape in which their statement starts. -/
theorem catches_sits {handlers : List Handler} (hall : Handler.AllIn C p.HasVariable handlers)
    {labels : List Label} {i j : Nat} (hat : CatchesAt p handlers labels i j) (σ : Shape)
    (hσ : σ.Bears 0) (hbase : σ.prepared = 0 ∨ σ.base = σ.height)
    (hlaid : Laid S i (catchesShapes σ handlers))
    (hexit : S[j]? = some (afterCatches σ handlers))
    (hlabels : ∀ l ∈ labels, p.Leads S l (.plain (σ.height + 1) σ.scopes)) : Sits p S i j := by
  induction handlers generalizing labels i σ with
  | nil =>
    obtain ⟨-, rfl⟩ := hat
    exact Sits.nil
  | cons handler rest ih =>
    obtain ⟨name, codes, body⟩ := handler
    obtain ⟨label, more, k, rfl, hcodes, hop, hrest⟩ := hat
    obtain rfl := codes_length hcodes σ
    have hj := catches_shapes_length hrest (σ.up 1).prepare
    simp only [catchesShapes, laid_append, Laid] at hlaid
    obtain ⟨hlaidc, hk, hlaidr⟩ := hlaid
    have hlead : p.Leads S label (σ.up 1).prepare.handler := hlabels label List.mem_cons_self
    refine ((codes_sits hall.2.1 hcodes hσ hlaidc hk).append (Sits.one hop hk ?_)).append
      (ih hall.2.2.2 hrest (σ.up 1).prepare ⟨Nat.zero_le _, hσ.above⟩ (.inr rfl) hlaidr hexit
        fun l hl => hlabels l (List.mem_cons_of_mem _ hl))
    exact .fork rfl hlead.hasLabel hbase (hσ.up (Nat.le_refl 1))
      (catches_head hlaidr (hj ▸ hexit)) hlead

/-- As many handlers are prepared as there are clauses. -/
theorem afterCatches_eq (handlers : List Handler) (σ : Shape)
    (hbase : σ.prepared = 0 ∨ σ.base = σ.height) :
    (afterCatches σ handlers).height = σ.height ∧ (afterCatches σ handlers).scopes = σ.scopes ∧
      (afterCatches σ handlers).prepared = σ.prepared + handlers.length ∧
      ((afterCatches σ handlers).prepared = 0 ∨
        (afterCatches σ handlers).base = (afterCatches σ handlers).height) := by
  induction handlers generalizing σ with
  | nil => exact ⟨rfl, rfl, rfl, hbase⟩
  | cons handler rest ih =>
    obtain ⟨hheight, hscopes, hprepared, hrest⟩ := ih (σ.up 1).prepare (.inr rfl)
    refine ⟨hheight, hscopes, ?_, hrest⟩
    have hcount : (σ.up 1).prepare.prepared = σ.prepared + 1 := rfl
    rw [List.length_cons]
    simp only [afterCatches]
    omega

theorem receive_sits {name : Option Name} (hall : ∀ n, name = some n → p.HasVariable n) {i j : Nat}
    (hat : ReceiveAt p name i j) {σ : Shape} (hσ : σ.Bears 0)
    (hlaid : Laid S i (receiveShapes σ name)) (hexit : S[j]? = some σ) : Sits p S i j := by
  cases name with
  | none =>
    obtain ⟨hop, rfl⟩ := hat
    exact Sits.one hop hlaid.1 (.next rfl trivial trivial (hσ.up (Nat.le_refl 1)) hexit)
  | some name =>
    obtain ⟨hstore, hpop, rfl⟩ := hat
    refine (Sits.one hstore hlaid.1 ?_).append (Sits.one hpop hlaid.2.1 ?_)
    · exact .next rfl (hall name rfl) trivial (hσ.up (Nat.le_refl 1)) hlaid.2.1
    · exact .next rfl trivial trivial (hσ.up (Nat.le_refl 1)) hexit

/-- The label of a handler leads to where the error is on top. -/
theorem handlers_lead {handlers : List Handler} {s : Site} {finish : Label} {labels : List Label}
    {i j : Nat} (hat : HandlersAt p s finish handlers labels i j) {σ : Shape}
    (hlaid : Laid S i (handlersShapes σ handlers)) : ∀ l ∈ labels, p.Leads S l (σ.up 1) := by
  induction handlers generalizing labels i with
  | nil =>
    simp only [HandlersAt] at hat
    obtain ⟨rfl, -⟩ := hat
    exact fun _ hl => nomatch hl
  | cons handler rest ih =>
    obtain ⟨name, codes, body⟩ := handler
    simp only [HandlersAt] at hat
    obtain ⟨label, more, k, m, rfl, ht, hr, hb, hrest⟩ := hat
    obtain rfl := receive_length hr σ
    obtain rfl := block_length body hb σ
    simp only [handlersShapes, laid_append] at hlaid
    intro l hl
    rcases List.mem_cons.mp hl with rfl | hl
    · exact ⟨i, ht, receive_head hlaid.1⟩
    · by_cases hlast : rest.isEmpty = true
      · rw [if_pos hlast] at hrest
        rw [hrest.1] at hl
        exact nomatch hl
      · rw [if_neg hlast] at hrest hlaid
        exact ih hrest.2 hlaid.2.2.2 l hl

/-! ## Statements -/

/-- Leaving a loop from inside: the stack is cut, and scopes are closed. -/
theorem exit_checks {height : Nat} {scopes outer : List Nat}
    (hσ : (Shape.plain height scopes).Bears 0) {n depth : UInt16} {label : Label} {i : Nat}
    (hn : n.toNat ≤ height) (hsuffix : outer <:+ scopes) (hdepth : depth.toNat = outer.length)
    (hlead : p.Leads S label (.plain n.toNat outer)) :
    (Op.exit n label depth).Checks p S i (.plain height scopes) := by
  have houter : scopes.drop (scopes.length - depth.toNat) = outer := by
    rw [hdepth]
    exact (List.suffix_iff_eq_drop.mp hsuffix).symm
  refine .goto (ρ := .plain n.toNat outer) ?_ hlead.hasLabel ⟨hn, ?_⟩ hσ hlead
  · rw [Op.exits, houter]
  · rw [hdepth]
    exact hsuffix.length_le

mutual

/-- Every instruction of a statement is right for its shape. -/
theorem stmt_sits (stmt : Stmt) (hall : Stmt.All C p.HasVariable stmt) {s : Site} {i j : Nat}
    (hat : Stmt.At p s stmt i j) {height : Nat} {scopes : List Nat}
    (hσ : (Shape.plain height scopes).Bears 0) (hs : s.Agrees S height scopes)
    (hlaid : Laid S i (stmt.shapes (.plain height scopes)))
    (hexit : S[j]? = some (.plain height scopes)) : Sits p S i j := by
  obtain ⟨line, column, node⟩ := stmt
  simp only [Stmt.At] at hat
  simp only [Stmt.shapes] at hlaid
  exact stmtNode_sits node hall hat hσ hs hlaid hexit

theorem stmtNode_sits (node : StmtNode) (hall : StmtNode.All C p.HasVariable node) {s : Site}
    {i j : Nat} (hat : StmtNode.At p s node i j) {height : Nat} {scopes : List Nat}
    (hσ : (Shape.plain height scopes).Bears 0) (hs : s.Agrees S height scopes)
    (hlaid : Laid S i (node.shapes (.plain height scopes)))
    (hexit : S[j]? = some (.plain height scopes)) : Sits p S i j := by
  cases node with
  | branch arms otherwise =>
    cases otherwise with
    | none =>
      simp only [StmtNode.At] at hat
      obtain ⟨k, finish, harms, rfl, ht⟩ := hat
      simp only [StmtNode.shapes, List.append_nil] at hlaid
      exact arms_sits arms hall.1 harms hσ hs hlaid hexit ⟨_, ht, hexit⟩
    | some body =>
      simp only [StmtNode.At] at hat
      obtain ⟨k, finish, harms, hother, ht⟩ := hat
      obtain rfl := arms_length arms harms (.plain height scopes)
      have hj := block_length body hother (.plain height scopes)
      simp only [StmtNode.shapes, laid_append] at hlaid
      exact (arms_sits arms hall.1 harms hσ hs hlaid.1 (block_head body hlaid.2 (hj ▸ hexit))
        ⟨_, ht, hexit⟩).append (block_sits body hall.2 hother hσ hs hlaid.2 hexit)
  | forList name source body =>
    simp only [StmtNode.At] at hat
    obtain ⟨k, m, top, finish, hsource, hzero, hop, hb, hjump, htop, hfinish, rfl⟩ := hat
    obtain rfl := expr_length source hsource (.plain height scopes)
    obtain rfl := block_length body hb (.plain (height + 2) scopes)
    simp only [StmtNode.shapes, laid_append, Laid] at hlaid
    obtain ⟨hlaids, hk, hk', hlaidb, hm, -⟩ := hlaid
    -- In the body the list and the place in it are on the stack.
    have hbody : (Shape.plain (height + 2) scopes).Bears 0 := hσ.lift 2
    have hhead := block_head body hlaidb hm
    refine (((((expr_sits source hall.2.1 hsource hσ hlaids hk).append
      (Sits.one hzero hk ?_)).append (Sits.one hop hk' ?_)).append
      (block_sits body hall.2.2 hb hbody (hs.inLoop hk' hexit) hlaidb hm)).append
      (Sits.one hjump hm ?_))
    · exact .next rfl trivial trivial (hσ.lift 1) hk'
    · exact .fork rfl ⟨hall.1, .of_target hfinish⟩ trivial (hσ.up (Nat.le_refl 2)) hhead
        ⟨_, hfinish, hexit⟩
    · exact .goto rfl (.of_target htop) trivial hbody ⟨_, htop, hk'⟩
  | forRange name first last body =>
    simp only [StmtNode.At] at hat
    obtain ⟨n, k, m, top, finish, hf, hl, hop, hb, hjump, htop, hfinish, rfl⟩ := hat
    obtain rfl := expr_length first hf (.plain height scopes)
    obtain rfl := expr_length last hl (.plain (height + 1) scopes)
    obtain rfl := block_length body hb (.plain (height + 2) scopes)
    simp only [StmtNode.shapes, laid_append, Laid] at hlaid
    obtain ⟨hlaidf, hlaidl, hk, hlaidb, hm, -⟩ := hlaid
    have hbody : (Shape.plain (height + 2) scopes).Bears 0 := hσ.lift 2
    have hhead := block_head body hlaidb hm
    refine (((((expr_sits first hall.2.1 hf hσ hlaidf (expr_head last hlaidl)).append
      (expr_sits last hall.2.2.1 hl (hσ.lift 1) hlaidl hk)).append (Sits.one hop hk ?_)).append
      (block_sits body hall.2.2.2 hb hbody (hs.inLoop hk hexit) hlaidb hm)).append
      (Sits.one hjump hm ?_))
    · exact .fork rfl ⟨hall.1, .of_target hfinish⟩ trivial (hσ.up (Nat.le_refl 2)) hhead
        ⟨_, hfinish, hexit⟩
    · exact .goto rfl (.of_target htop) trivial hbody ⟨_, htop, hk⟩
  | «while» condition body =>
    simp only [StmtNode.At] at hat
    obtain ⟨k, m, top, finish, hc, hop, hb, hjump, htop, hfinish, rfl⟩ := hat
    obtain rfl := expr_length condition hc (.plain height scopes)
    obtain rfl := block_length body hb (.plain height scopes)
    simp only [StmtNode.shapes, laid_append, Laid] at hlaid
    obtain ⟨hlaidc, hk, hlaidb, hm, -⟩ := hlaid
    have hi := expr_head condition hlaidc
    have hhead := block_head body hlaidb hm
    have hloop : (s.inLoop 0 i _).Agrees S height scopes := hs.inLoop hi hexit
    refine ((((expr_sits condition hall.1 hc hσ hlaidc hk).append (Sits.one hop hk ?_)).append
      (block_sits body hall.2 hb hσ hloop hlaidb hm)).append
      (Sits.one hjump hm ?_))
    · exact .fork rfl (.of_target hfinish) trivial (hσ.up (Nat.le_refl 1)) hhead
        ⟨_, hfinish, hexit⟩
    · exact .goto rfl (.of_target htop) trivial hσ ⟨_, htop, hi⟩
  | «try» body handlers =>
    simp only [StmtNode.At] at hat
    obtain ⟨k, m, labels, count, finish, hc, henter, hcount, hb, hleave, hh, hfinish⟩ := hat
    obtain rfl := catches_shapes_length hc (.plain height scopes)
    obtain rfl := block_length body hb (.plain height (height :: scopes))
    simp only [StmtNode.shapes, laid_append, Laid] at hlaid
    obtain ⟨hlaidc, hk, hlaidb, hm, hlaidh⟩ := hlaid
    have hend : p.Leads S finish (.plain height scopes) := ⟨j, hfinish, hexit⟩
    obtain ⟨hheight, hscopes, hprepared, hbase⟩ :=
      afterCatches_eq handlers (.plain height scopes) (.inl rfl)
    -- The body may be left for a handler at the height of its start.
    have hbody : (Shape.plain height (height :: scopes)).Bears 0 := by
      refine ⟨Nat.zero_le _, fun h hh => ?_⟩
      rcases List.mem_cons.mp hh with rfl | hh
      · exact Nat.le_refl _
      · exact hσ.above h hh
    have hprepare : (afterCatches (.plain height scopes) handlers).Bears 0 := by
      refine ⟨Nat.zero_le _, ?_⟩
      rw [hheight, hscopes]
      exact hσ.above
    have hentered : (afterCatches (.plain height scopes) handlers).enter =
        .plain height (height :: scopes) := by
      rw [Shape.enter, hheight, hscopes]
    refine (((((catches_sits hall.2 hc (.plain height scopes) hσ (.inl rfl) hlaidc hk
      (handlers_lead hh hlaidh)).append (Sits.one henter hk ?_)).append
      (block_sits body hall.1 hb hbody hs.inTry hlaidb hm)).append (Sits.one hleave hm ?_)).append
      (handlers_sits handlers hall.2 hh hσ hs hlaidh hexit hend))
    · refine .next rfl hend.hasLabel ⟨?_, hbase⟩ hprepare ?_
      · rw [hcount, hprepared]
        exact (Nat.zero_add _).symm
      · rw [hentered]
        exact block_head body hlaidb hm
    · exact .goto rfl hend.hasLabel (List.cons_ne_nil _ _) hbody hend
  | «break» =>
    simp only [StmtNode.At] at hat
    obtain ⟨loop, n, label, depth, hloop, hop, hn, hlabel, hdepth, rfl⟩ := hat
    -- Where the loop ends was laid out when it was entered; the stack is no lower inside.
    obtain ⟨outer, hsuffix, houter, -, -, hbreak, hle⟩ := hs.loops loop hloop
    refine Sits.one hop hlaid.1 (exit_checks hσ (hn ▸ hle) hsuffix (hdepth.trans houter) ?_)
    exact ⟨_, hlabel, hn ▸ hbreak⟩
  | «continue» =>
    simp only [StmtNode.At] at hat
    obtain ⟨loop, n, label, depth, hloop, hop, hn, hlabel, hdepth, rfl⟩ := hat
    obtain ⟨outer, hsuffix, houter, hcontinue, hle, -, -⟩ := hs.loops loop hloop
    refine Sits.one hop hlaid.1 (exit_checks hσ (hn ▸ hle) hsuffix (hdepth.trans houter) ?_)
    exact ⟨_, hlabel, hn ▸ hcontinue⟩
  | «return» value =>
    cases value with
    | none =>
      simp only [StmtNode.At] at hat
      obtain ⟨hop, rfl⟩ := hat
      exact Sits.one hop hlaid.1 ⟨hσ, trivial, trivial, fun _ hx => nomatch hx⟩
    | some e =>
      simp only [StmtNode.At] at hat
      obtain ⟨k, he, hop, rfl⟩ := hat
      obtain rfl := expr_length e he (.plain height scopes)
      simp only [StmtNode.shapes, laid_append, Laid] at hlaid
      refine (expr_sits e hall he hσ hlaid.1 hlaid.2.1).append (Sits.one hop hlaid.2.1 ?_)
      exact ⟨hσ.up (Nat.le_refl 1), trivial, trivial, fun _ hx => nomatch hx⟩
  | expr e =>
    simp only [StmtNode.At] at hat
    obtain ⟨k, he, hop, rfl⟩ := hat
    obtain rfl := expr_length e he (.plain height scopes)
    simp only [StmtNode.shapes, laid_append, Laid] at hlaid
    refine (expr_sits e hall he hσ hlaid.1 hlaid.2.1).append (Sits.one hop hlaid.2.1 ?_)
    exact .next rfl trivial trivial (hσ.up (Nat.le_refl 1)) hexit

theorem block_sits (stmts : List Stmt) (hall : Stmt.AllIn C p.HasVariable stmts) {s : Site}
    {i j : Nat} (hat : BlockAt p s stmts i j) {height : Nat} {scopes : List Nat}
    (hσ : (Shape.plain height scopes).Bears 0) (hs : s.Agrees S height scopes)
    (hlaid : Laid S i (blockShapes (.plain height scopes) stmts))
    (hexit : S[j]? = some (.plain height scopes)) : Sits p S i j := by
  match stmts with
  | [] =>
    simp only [BlockAt] at hat
    obtain rfl := hat
    exact Sits.nil
  | stmt :: rest =>
    simp only [BlockAt] at hat
    obtain ⟨k, hstmt, hrest⟩ := hat
    obtain rfl := stmt_length stmt hstmt (.plain height scopes)
    have hj := block_length rest hrest (.plain height scopes)
    simp only [blockShapes, laid_append] at hlaid
    have hk := block_head rest hlaid.2 (hj ▸ hexit)
    exact (stmt_sits stmt hall.1 hstmt hσ hs hlaid.1 hk).append
      (block_sits rest hall.2 hrest hσ hs hlaid.2 hexit)

theorem arms_sits (arms : List (Expr × List Stmt)) (hall : Stmt.AllInArms C p.HasVariable arms)
    {s : Site} {finish : Label} {i j : Nat} (hat : ArmsAt p s finish arms i j) {height : Nat}
    {scopes : List Nat} (hσ : (Shape.plain height scopes).Bears 0) (hs : s.Agrees S height scopes)
    (hlaid : Laid S i (armsShapes (.plain height scopes) arms))
    (hexit : S[j]? = some (.plain height scopes))
    (hfinish : p.Leads S finish (.plain height scopes)) : Sits p S i j := by
  match arms with
  | [] =>
    simp only [ArmsAt] at hat
    obtain rfl := hat
    exact Sits.nil
  | (condition, body) :: rest =>
    simp only [ArmsAt] at hat
    obtain ⟨k, m, next, hc, hbranch, hb, hjump, hnext, hrest⟩ := hat
    obtain rfl := expr_length condition hc (.plain height scopes)
    obtain rfl := block_length body hb (.plain height scopes)
    have hj := arms_length rest hrest (.plain height scopes)
    simp only [armsShapes, laid_append, Laid] at hlaid
    obtain ⟨hlaidc, hk, hlaidb, hm, hlaidr⟩ := hlaid
    have hother := arms_head rest hlaidr (hj ▸ hexit)
    refine ((((expr_sits condition hall.1 hc hσ hlaidc hk).append (Sits.one hbranch hk ?_)).append
      (block_sits body hall.2.1 hb hσ hs hlaidb hm)).append (Sits.one hjump hm ?_)).append
      (arms_sits rest hall.2.2 hrest hσ hs hlaidr hexit hfinish)
    · exact .fork rfl (.of_target hnext) trivial (hσ.up (Nat.le_refl 1))
        (block_head body hlaidb hm) ⟨_, hnext, hother⟩
    · exact .goto rfl hfinish.hasLabel trivial hσ hfinish

theorem handlers_sits (handlers : List Handler) (hall : Handler.AllIn C p.HasVariable handlers)
    {s : Site} {finish : Label} {labels : List Label} {i j : Nat}
    (hat : HandlersAt p s finish handlers labels i j) {height : Nat} {scopes : List Nat}
    (hσ : (Shape.plain height scopes).Bears 0) (hs : s.Agrees S height scopes)
    (hlaid : Laid S i (handlersShapes (.plain height scopes) handlers))
    (hexit : S[j]? = some (.plain height scopes))
    (hfinish : p.Leads S finish (.plain height scopes)) : Sits p S i j := by
  match handlers with
  | [] =>
    simp only [HandlersAt] at hat
    obtain ⟨-, rfl⟩ := hat
    exact Sits.nil
  | .mk name codes body :: rest =>
    simp only [HandlersAt] at hat
    obtain ⟨label, more, k, m, -, -, hr, hb, hrest⟩ := hat
    obtain rfl := receive_length hr (.plain height scopes)
    obtain rfl := block_length body hb (.plain height scopes)
    simp only [handlersShapes, laid_append] at hlaid
    obtain ⟨hlaidr, hlaidb, hlaidm⟩ := hlaid
    by_cases hlast : rest.isEmpty = true
    · rw [if_pos hlast] at hrest
      obtain ⟨-, rfl⟩ := hrest
      exact (receive_sits hall.1 hr hσ hlaidr (block_head body hlaidb hexit)).append
        (block_sits body hall.2.2.1 hb hσ hs hlaidb hexit)
    · rw [if_neg hlast] at hrest hlaidm
      obtain ⟨hjump, hmore⟩ := hrest
      obtain ⟨hm, hlaidh⟩ := hlaidm
      refine (((receive_sits hall.1 hr hσ hlaidr (block_head body hlaidb hm)).append
        (block_sits body hall.2.2.1 hb hσ hs hlaidb hm)).append (Sits.one hjump hm ?_)).append
        (handlers_sits rest hall.2.2.2 hmore hσ hs hlaidh hexit hfinish)
      exact .goto rfl hfinish.hasLabel trivial hσ hfinish

end

end

end Script

end Lineage
