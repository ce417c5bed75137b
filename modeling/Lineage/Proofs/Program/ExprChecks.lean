/-
  Lineage.Proofs.Program.ExprChecks

  Expressions are right for their shapes.

  Where the list of shapes of an expression is laid beside its code, every instruction
  of it finds what it needs and leads to places with the shapes that it leaves
  (`expr_sits`).  An expression never takes what was on the stack when it started.
-/
import Lineage.Proofs.Program.ExprShapes

namespace Lineage.Script

open Draft (operandCount isIndexed)

/-- The instructions from one place up to another are right for their shapes. -/
def Sits (p : Program) (S : List Shape) (i j : Nat) : Prop :=
  ∀ (k : Nat) (op : Op) (σ : Shape), i ≤ k → k < j → p.ops[k]? = some op → S[k]? = some σ →
    op.Checks p S k σ

section

variable {p : Program} {S : List Shape} {i j k : Nat} {σ τ : Shape} {op : Op}

theorem Sits.nil : Sits p S i i := by
  intro k op σ hi hj
  omega

theorem Sits.append (h : Sits p S i k) (h' : Sits p S k j) : Sits p S i j := by
  intro m op σ hi hj
  by_cases hm : m < k
  · exact h m op σ hi hm
  · exact h' m op σ (Nat.le_of_not_lt hm) hj

theorem Sits.one (hop : p.ops[i]? = some op) (hσ : S[i]? = some σ) (h : op.Checks p S i σ) :
    Sits p S i (i + 1) := by
  intro k op' σ' hi hj hop' hσ'
  obtain rfl : k = i := by omega
  rw [hop] at hop'
  rw [hσ] at hσ'
  cases hop'
  cases hσ'
  exact h

end

/-! ## Expressions are right -/

section

variable {p : Program} {S : List Shape} {C : Value → Prop} {σ : Shape}

/-- Containers are put back from where the new value is on top. -/
theorem putBack_head (target : Expr) {i j : Nat} (hat : PutBackAt p target i j)
    (hlaid : Laid S i (putBackShapes σ target)) :
    S[i]? = some (σ.up (operandCount target + 1)) := by
  cases target with
  | index base index => exact hlaid.1
  | var name => exact hlaid.1
  | prop object property => exact hlaid.1
  | _ => exact hat.elim

/-- The code that puts containers back. -/
theorem putBack_sits (hσ : σ.Bears 0) (target : Expr) (hall : target.All C p.HasVariable)
    {i j : Nat} (hat : PutBackAt p target i j) (hlaid : Laid S i (putBackShapes σ target))
    (hexit : S[j]? = some (σ.up 1)) : Sits p S i j := by
  cases target with
  | index base index =>
    obtain ⟨hop, hrest⟩ := hat
    refine (Sits.one hop hlaid.1 ?_).append (putBack_sits hσ base hall.1 hrest hlaid.2 hexit)
    exact .next rfl trivial trivial (hσ.up (Nat.le_add_left 3 _)) (putBack_head base hrest hlaid.2)
  | var name =>
    obtain ⟨hop, rfl⟩ := hat
    exact Sits.one hop hlaid.1 (.next rfl hall trivial (hσ.up (Nat.le_refl 1)) hexit)
  | prop object property =>
    obtain ⟨hop, rfl⟩ := hat
    exact Sits.one hop hlaid.1 (.next rfl trivial trivial (hσ.up (Nat.le_refl 3)) hexit)
  | _ => exact hat.elim

/-- The label of a default leads to where the list that was dealt out is on top. -/
theorem defaults_lead (targets : List Target) {entries : List ScatterEntry} {i j : Nat}
    (hat : DefaultsAt p targets entries i j) (hlaid : Laid S i (defaultsShapes σ targets))
    {name : Name} {l : Label}
    (hl : ScatterEntry.optional name (some l) ∈ entries) : p.Leads S l (σ.up 1) := by
  induction targets generalizing entries i with
  | nil =>
    obtain ⟨rfl, -⟩ := hat
    exact nomatch hl
  | cons target rest ih =>
    cases target with
    | required other | rest other =>
      obtain ⟨more, rfl, hrest⟩ := hat
      rcases List.mem_cons.mp hl with h | hl
      · exact nomatch h
      · exact ih hrest hlaid hl
    | optional other default =>
      cases default with
      | none =>
        obtain ⟨more, rfl, hrest⟩ := hat
        rcases List.mem_cons.mp hl with h | hl
        · exact nomatch h
        · exact ih hrest hlaid hl
      | some default =>
        obtain ⟨label, more, k, rfl, ht, hd, -, -, hrest⟩ := hat
        obtain rfl := expr_length default hd (σ.up 1)
        simp only [defaultsShapes, laid_append, Laid] at hlaid
        rcases List.mem_cons.mp hl with h | hl
        · cases h
          exact ⟨i, ht, expr_head default hlaid.1⟩
        · exact ih hrest hlaid.2.2.2 hl

/-- The variables in a table are those of the targets. -/
theorem defaults_variables (targets : List Target) (hall : Target.AllIn C p.HasVariable targets)
    {entries : List ScatterEntry} {i j : Nat} (hat : DefaultsAt p targets entries i j) :
    ∀ entry ∈ entries, p.HasVariable entry.name := by
  induction targets generalizing entries i with
  | nil =>
    obtain ⟨rfl, -⟩ := hat
    exact fun _ h => nomatch h
  | cons target rest ih =>
    intro entry hentry
    cases target with
    | required other | rest other =>
      obtain ⟨more, rfl, hrest⟩ := hat
      rcases List.mem_cons.mp hentry with rfl | hentry
      · exact hall.1
      · exact ih hall.2 hrest entry hentry
    | optional other default =>
      cases default with
      | none =>
        obtain ⟨more, rfl, hrest⟩ := hat
        rcases List.mem_cons.mp hentry with rfl | hentry
        · exact hall.1
        · exact ih hall.2 hrest entry hentry
      | some default =>
        obtain ⟨label, more, k, rfl, -, -, -, -, hrest⟩ := hat
        rcases List.mem_cons.mp hentry with rfl | hentry
        · exact hall.1
        · exact ih hall.2.2 hrest entry hentry

mutual

/-- Every instruction of an expression is right for its shape. -/
theorem expr_sits (e : Expr) (hall : e.All C p.HasVariable) {i j : Nat} (hat : Expr.At p e i j)
    {σ : Shape} (hσ : σ.Bears 0) (hlaid : Laid S i (e.shapes σ))
    (hexit : S[j]? = some (σ.up 1)) : Sits p S i j := by
  cases e with
  | value v =>
    simp only [Expr.At] at hat
    obtain ⟨op, hop, hv, rfl⟩ := hat
    refine Sits.one hop hlaid.1 ?_
    cases hv with
    | literal hl => exact .next rfl (Array.getElem?_eq_some_iff.mp hl).1 trivial hσ hexit
    | _ => exact .next rfl trivial trivial hσ hexit
  | var name =>
    simp only [Expr.At] at hat
    obtain ⟨hop, rfl⟩ := hat
    exact Sits.one hop hlaid.1 (.next rfl hall trivial hσ hexit)
  | and left right | or left right =>
    simp only [Expr.At] at hat
    obtain ⟨k, done, hl, hop, hr, ht⟩ := hat
    obtain rfl := expr_length left hl σ
    simp only [Expr.shapes, laid_append, Laid] at hlaid
    obtain ⟨hlaidl, hk, hlaidr⟩ := hlaid
    refine ((expr_sits left hall.1 hl hσ hlaidl hk).append (Sits.one hop hk ?_)).append
      (expr_sits right hall.2 hr hσ hlaidr hexit)
    -- The value of the left side is on top at the end, and gone where the right side starts.
    exact .fork rfl (.of_target ht) trivial (hσ.up (Nat.le_refl 1)) (expr_head right hlaidr)
      ⟨j, ht, hexit⟩
  | binary op left right | index left right | prop left right =>
    simp only [Expr.At] at hat
    obtain ⟨k, m, hl, hr, hop, rfl⟩ := hat
    obtain rfl := expr_length left hl σ
    obtain rfl := expr_length right hr (σ.up 1)
    simp only [Expr.shapes, laid_append, Laid] at hlaid
    obtain ⟨hlaidl, hlaidr, hm, -⟩ := hlaid
    refine ((expr_sits left hall.1 hl hσ hlaidl (expr_head right hlaidr)).append
      (expr_sits right hall.2 hr (hσ.lift 1) hlaidr hm)).append (Sits.one hop hm ?_)
    exact .next rfl trivial trivial (hσ.up (Nat.le_refl 2)) hexit
  | unary op operand =>
    -- Both operators take one value and give one.
    obtain ⟨k, op', ho, hop, hplain, rfl⟩ : ∃ k op', Expr.At p operand i k ∧ p.ops[k]? = some op' ∧
        (op' = .negate ∨ op' = .not) ∧ j = k + 1 := by
      cases op <;> simp only [Expr.At] at hat <;> obtain ⟨k, ho, hop, hj⟩ := hat
      · exact ⟨k, _, ho, hop, .inl rfl, hj⟩
      · exact ⟨k, _, ho, hop, .inr rfl, hj⟩
    obtain rfl := expr_length operand ho σ
    simp only [Expr.shapes, laid_append, Laid] at hlaid
    obtain ⟨hlaido, hk, -⟩ := hlaid
    refine (expr_sits operand hall ho hσ hlaido hk).append (Sits.one hop hk ?_)
    rcases hplain with rfl | rfl
    · exact .next rfl trivial trivial (hσ.up (Nat.le_refl 1)) hexit
    · exact .next rfl trivial trivial (hσ.up (Nat.le_refl 1)) hexit
  | range base first last =>
    simp only [Expr.At] at hat
    obtain ⟨k, m, n, hb, hf, hl, hop, rfl⟩ := hat
    obtain rfl := expr_length base hb σ
    obtain rfl := expr_length first hf (σ.up 1)
    obtain rfl := expr_length last hl (σ.up 2)
    simp only [Expr.shapes, laid_append, Laid] at hlaid
    obtain ⟨hlaidb, hlaidf, hlaidl, hn, -⟩ := hlaid
    refine (((expr_sits base hall.1 hb hσ hlaidb (expr_head first hlaidf)).append
      (expr_sits first hall.2.1 hf (hσ.lift 1) hlaidf (expr_head last hlaidl))).append
      (expr_sits last hall.2.2 hl (hσ.lift 2) hlaidl hn)).append (Sits.one hop hn ?_)
    exact .next rfl trivial trivial (hσ.up (Nat.le_refl 3)) hexit
  | call function args =>
    simp only [Expr.At] at hat
    obtain ⟨f, k, -, ha, hop, rfl⟩ := hat
    obtain rfl := args_length args ha σ
    simp only [Expr.shapes, laid_append, Laid] at hlaid
    obtain ⟨hlaida, hk, -⟩ := hlaid
    refine (args_sits args hall ha hσ hlaida hk).append (Sits.one hop hk ?_)
    exact .next rfl trivial trivial (hσ.up (Nat.le_refl 1)) hexit
  | verb object name args =>
    simp only [Expr.At] at hat
    obtain ⟨k, m, n, ho, hname, ha, hop, rfl⟩ := hat
    obtain rfl := expr_length object ho σ
    obtain rfl := expr_length name hname (σ.up 1)
    obtain rfl := args_length args ha (σ.up 2)
    simp only [Expr.shapes, laid_append, Laid] at hlaid
    obtain ⟨hlaido, hlaidn, hlaida, hn, -⟩ := hlaid
    refine (((expr_sits object hall.1 ho hσ hlaido (expr_head name hlaidn)).append
      (expr_sits name hall.2.1 hname (hσ.lift 1) hlaidn (args_head args hlaida))).append
      (args_sits args hall.2.2 ha (hσ.lift 2) hlaida hn)).append (Sits.one hop hn ?_)
    exact .next rfl trivial trivial (hσ.up (Nat.le_refl 3)) hexit
  | cond condition consequence alternative =>
    simp only [Expr.At] at hat
    obtain ⟨k, m, otherwise, done, hc, hchoose, ht, hjump, hother, ha, hdone⟩ := hat
    obtain rfl := expr_length condition hc σ
    obtain rfl := expr_length consequence ht σ
    simp only [Expr.shapes, laid_append, Laid] at hlaid
    obtain ⟨hlaidc, hk, hlaidt, hm, hlaida⟩ := hlaid
    have hchecks : Op.Checks p S _ (σ.up 1) (.choose otherwise) :=
      .fork rfl (.of_target hother) trivial (hσ.up (Nat.le_refl 1)) (expr_head consequence hlaidt)
        ⟨_, hother, expr_head alternative hlaida⟩
    have hleaves {k : Nat} : Op.Checks p S k (σ.up 1) (.jump done) :=
      .goto rfl (.of_target hdone) trivial (hσ.lift 1) ⟨j, hdone, hexit⟩
    exact ((((expr_sits condition hall.1 hc hσ hlaidc hk).append (Sits.one hchoose hk hchecks)).append
      (expr_sits consequence hall.2.1 ht hσ hlaidt hm)).append (Sits.one hjump hm hleaves)).append
      (expr_sits alternative hall.2.2 ha hσ hlaida hexit)
  | list items =>
    simp only [Expr.At] at hat
    simp only [Expr.shapes] at hlaid
    exact args_sits items hall hat hσ hlaid hexit
  | map entries =>
    simp only [Expr.At] at hat
    simp only [Expr.shapes, Laid] at hlaid
    obtain ⟨hop, hentries⟩ := hat
    have hj := entries_length entries hentries σ
    refine (Sits.one hop hlaid.1 ?_).append
      (entries_sits entries hall hentries hσ hlaid.2 hexit)
    exact .next rfl trivial trivial hσ (entries_head entries hlaid.2 (hj ▸ hexit))
  | scatter targets source =>
    simp only [Expr.At] at hat
    obtain ⟨k, slot, table, hs, hop, htable, hd, hdone⟩ := hat
    obtain rfl := expr_length source hs σ
    simp only [Expr.shapes, laid_append, Laid] at hlaid
    obtain ⟨hlaids, hk, hlaidd⟩ := hlaid
    -- Each label of the table leads to where one value more is on the stack: its last one to the
    -- end, the others each to a default.
    have hlabels : ∀ l ∈ table.labels, p.Leads S l (σ.up 1) := by
      intro l hl
      rcases List.mem_cons.mp hl with rfl | hl
      · exact ⟨j, hdone, hexit⟩
      · obtain ⟨entry, hentry, hdefault⟩ := List.mem_filterMap.mp hl
        cases entry with
        | optional name default =>
          obtain rfl : default = some l := hdefault
          exact defaults_lead targets hd hlaidd hentry
        | _ => exact nomatch hdefault
    refine ((expr_sits source hall.2 hs hσ hlaids hk).append (Sits.one hop hk ?_)).append
      (defaults_sits targets hall.1 hd hσ hlaidd hexit)
    refine ⟨hσ.up (Nat.le_refl 1), ⟨table, htable, fun l hl => (hlabels l hl).hasLabel,
      defaults_variables targets hall.1 hd⟩, trivial, ?_⟩
    intro x hx
    simp only [Op.exits, htable] at hx
    obtain ⟨l, hl, rfl⟩ := List.mem_map.mp hx
    exact hlabels l hl
  | assign target value =>
    simp only [Expr.At] at hat
    obtain ⟨k, m, hloc, hval, hput⟩ := hat
    obtain rfl := location_length false target hloc σ
    obtain rfl := expr_length value hval (σ.up (operandCount target))
    simp only [Expr.shapes, laid_append] at hlaid
    obtain ⟨hlaidl, hlaidv, hlaidp⟩ := hlaid
    have hoperands := location_sits false target hall.1 hloc hσ hlaidl (expr_head value hlaidv)
    have hvalue := expr_sits value hall.2 hval (hσ.lift (operandCount target)) hlaidv
    -- Only an indexed target keeps the value aside, since what is left after writing back is the
    -- changed container.
    by_cases hi : isIndexed target = true
    · rw [if_pos hi] at hput hlaidp
      obtain ⟨n, hkeep, hback, hpop, hpush, rfl⟩ := hput
      obtain rfl := putBack_length target hback σ
      simp only [Laid, laid_append] at hlaidp
      obtain ⟨hm, hlaidb, hn, hn', -⟩ := hlaidp
      refine ((((hoperands.append (hvalue hm)).append (Sits.one hkeep hm ?_)).append
        (putBack_sits hσ target hall.1 hback hlaidb hn)).append (Sits.one hpop hn ?_)).append
        (Sits.one hpush hn' ?_)
      · exact .next rfl trivial trivial (hσ.up (Nat.le_add_left 1 _))
          (putBack_head target hback hlaidb)
      · exact .next rfl trivial trivial (hσ.up (Nat.le_refl 1)) hn'
      · exact .next rfl trivial trivial hσ hexit
    · rw [if_neg hi] at hput hlaidp
      exact (hoperands.append (hvalue (putBack_head target hput hlaidp))).append
        (putBack_sits hσ target hall.1 hput hlaidp hexit)

theorem location_sits (inner : Bool) (target : Expr) (hall : target.All C p.HasVariable)
    {i j : Nat} (hat : LocationAt p inner target i j) {σ : Shape} (hσ : σ.Bears 0)
    (hlaid : Laid S i (locationShapes inner σ target))
    (hexit : S[j]? = some (σ.up (operandCount target + inner.toNat))) : Sits p S i j := by
  cases target with
  | index base index =>
    simp only [LocationAt] at hat
    obtain ⟨k, m, hb, hx, hj⟩ := hat
    obtain rfl := location_length true base hb σ
    obtain rfl := expr_length index hx (σ.up (operandCount base + 1))
    simp only [locationShapes, laid_append] at hlaid
    obtain ⟨hlaidb, hlaidx, hlaidj⟩ := hlaid
    have hbase := location_sits true base hall.1 hb hσ hlaidb (expr_head index hlaidx)
    have hindex := expr_sits index hall.2 hx (hσ.lift (operandCount base + 1)) hlaidx
    cases inner with
    | false =>
      obtain rfl : j = _ := by simpa using hj
      exact hbase.append (hindex hexit)
    | true =>
      obtain ⟨hop, rfl⟩ : p.ops[_]? = some Op.indexOver ∧ j = _ + 1 := by simpa using hj
      refine (hbase.append (hindex hlaidj.1)).append (Sits.one hop hlaidj.1 ?_)
      exact .next rfl trivial trivial (hσ.up (Nat.le_add_left 2 _)) hexit
  | var name =>
    simp only [LocationAt] at hat
    cases inner with
    | false =>
      obtain rfl : j = i := by simpa using hat
      exact Sits.nil
    | true =>
      obtain ⟨hop, rfl⟩ : p.ops[i]? = some (.load name) ∧ j = i + 1 := by simpa using hat
      exact Sits.one hop hlaid.1 (.next rfl hall trivial hσ hexit)
  | prop object property =>
    simp only [LocationAt] at hat
    obtain ⟨k, m, ho, hp, hj⟩ := hat
    obtain rfl := expr_length object ho σ
    obtain rfl := expr_length property hp (σ.up 1)
    simp only [locationShapes, laid_append] at hlaid
    obtain ⟨hlaido, hlaidp, hlaidj⟩ := hlaid
    have hobject := expr_sits object hall.1 ho hσ hlaido (expr_head property hlaidp)
    have hproperty := expr_sits property hall.2 hp (hσ.lift 1) hlaidp
    cases inner with
    | false =>
      obtain rfl : j = _ := by simpa using hj
      exact hobject.append (hproperty hexit)
    | true =>
      obtain ⟨hop, rfl⟩ : p.ops[_]? = some Op.getPropOver ∧ j = _ + 1 := by simpa using hj
      refine (hobject.append (hproperty hlaidj.1)).append (Sits.one hop hlaidj.1 ?_)
      exact .next rfl trivial trivial (hσ.up (Nat.le_refl 2)) hexit
  | _ =>
    simp only [LocationAt] at hat

theorem args_sits (args : List Arg) (hall : Arg.AllIn C p.HasVariable args) {i j : Nat}
    (hat : ArgsAt p args i j) {σ : Shape} (hσ : σ.Bears 0) (hlaid : Laid S i (argsShapes σ args))
    (hexit : S[j]? = some (σ.up 1)) : Sits p S i j := by
  match args with
  | [] =>
    simp only [ArgsAt] at hat
    obtain ⟨hop, rfl⟩ := hat
    exact Sits.one hop hlaid.1 (.next rfl trivial trivial hσ hexit)
  | .item e :: rest | .splice e :: rest =>
    simp only [ArgsAt] at hat
    obtain ⟨k, he, hop, hrest⟩ := hat
    obtain rfl := expr_length e he σ
    simp only [argsShapes, laid_append, Laid] at hlaid
    obtain ⟨hlaide, hk, hlaidr⟩ := hlaid
    have hj := moreArgs_length rest hrest σ
    refine ((expr_sits e hall.1 he hσ hlaide hk).append (Sits.one hop hk ?_)).append
      (moreArgs_sits rest hall.2 hrest hσ hlaidr hexit)
    exact .next rfl trivial trivial (hσ.up (Nat.le_refl 1))
      (moreArgs_head rest hlaidr (hj ▸ hexit))

theorem moreArgs_sits (args : List Arg) (hall : Arg.AllIn C p.HasVariable args) {i j : Nat}
    (hat : MoreArgsAt p args i j) {σ : Shape} (hσ : σ.Bears 0)
    (hlaid : Laid S i (moreArgsShapes σ args)) (hexit : S[j]? = some (σ.up 1)) : Sits p S i j := by
  match args with
  | [] =>
    simp only [MoreArgsAt] at hat
    obtain rfl := hat
    exact Sits.nil
  | .item e :: rest | .splice e :: rest =>
    simp only [MoreArgsAt] at hat
    obtain ⟨k, he, hop, hrest⟩ := hat
    obtain rfl := expr_length e he (σ.up 1)
    simp only [moreArgsShapes, laid_append, Laid] at hlaid
    obtain ⟨hlaide, hk, hlaidr⟩ := hlaid
    have hj := moreArgs_length rest hrest σ
    refine ((expr_sits e hall.1 he (hσ.lift 1) hlaide hk).append (Sits.one hop hk ?_)).append
      (moreArgs_sits rest hall.2 hrest hσ hlaidr hexit)
    exact .next rfl trivial trivial (hσ.up (Nat.le_refl 2))
      (moreArgs_head rest hlaidr (hj ▸ hexit))

theorem entries_sits (entries : List (Expr × Expr)) (hall : Expr.AllIn C p.HasVariable entries)
    {i j : Nat} (hat : EntriesAt p entries i j) {σ : Shape} (hσ : σ.Bears 0)
    (hlaid : Laid S i (entriesShapes σ entries)) (hexit : S[j]? = some (σ.up 1)) :
    Sits p S i j := by
  match entries with
  | [] =>
    simp only [EntriesAt] at hat
    obtain rfl := hat
    exact Sits.nil
  | (key, value) :: rest =>
    simp only [EntriesAt] at hat
    obtain ⟨k, m, hkey, hvalue, hop, hrest⟩ := hat
    obtain rfl := expr_length key hkey (σ.up 1)
    obtain rfl := expr_length value hvalue (σ.up 2)
    simp only [entriesShapes, laid_append, Laid] at hlaid
    obtain ⟨hlaidk, hlaidv, hm, hlaidr⟩ := hlaid
    have hj := entries_length rest hrest σ
    refine (((expr_sits key hall.1 hkey (hσ.lift 1) hlaidk (expr_head value hlaidv)).append
      (expr_sits value hall.2.1 hvalue (hσ.lift 2) hlaidv hm)).append (Sits.one hop hm ?_)).append
      (entries_sits rest hall.2.2 hrest hσ hlaidr hexit)
    exact .next rfl trivial trivial (hσ.up (Nat.le_refl 3))
      (entries_head rest hlaidr (hj ▸ hexit))

theorem defaults_sits (targets : List Target) (hall : Target.AllIn C p.HasVariable targets)
    {entries : List ScatterEntry} {i j : Nat} (hat : DefaultsAt p targets entries i j)
    {σ : Shape} (hσ : σ.Bears 0) (hlaid : Laid S i (defaultsShapes σ targets))
    (hexit : S[j]? = some (σ.up 1)) : Sits p S i j := by
  match targets with
  | [] =>
    simp only [DefaultsAt] at hat
    obtain ⟨-, rfl⟩ := hat
    exact Sits.nil
  | .required name :: rest | .rest name :: rest | .optional name none :: rest =>
    simp only [DefaultsAt] at hat
    obtain ⟨more, rfl, hrest⟩ := hat
    simp only [defaultsShapes] at hlaid
    exact defaults_sits rest hall.2 hrest hσ hlaid hexit
  | .optional name (some default) :: rest =>
    simp only [DefaultsAt] at hat
    obtain ⟨label, more, k, rfl, -, hd, hstore, hpop, hrest⟩ := hat
    obtain rfl := expr_length default hd (σ.up 1)
    simp only [defaultsShapes, laid_append, Laid] at hlaid
    obtain ⟨hlaidd, hk, hk', hlaidr⟩ := hlaid
    have hj := defaults_length rest hrest σ
    refine (((expr_sits default hall.2.1 hd (hσ.lift 1) hlaidd hk).append
      (Sits.one hstore hk ?_)).append (Sits.one hpop hk' ?_)).append
      (defaults_sits rest hall.2.2 hrest hσ hlaidr hexit)
    · exact .next rfl hall.1 trivial (hσ.up (Nat.le_succ 1)) hk'
    · exact .next rfl trivial trivial (hσ.up (Nat.le_succ 1))
        (defaults_head rest hlaidr (hj ▸ hexit))

end

end

end Lineage.Script
