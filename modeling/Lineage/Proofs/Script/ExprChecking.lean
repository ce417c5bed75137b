/-
  Lineage.Proofs.Script.ExprChecking

  When the reader takes an expression.

  An expression is taken if nothing is wrong with its literals and scattering
  assignments, anywhere in it, and comes to a legal one if nothing is wrong with its calls
  and assignments (`ExprTaken`).  Every lemma is about one part of the reader, and supposes
  that of the expressions inside (`Vetted`); the induction on trees comes last
  (`Legible.vetted`).
-/
import Lineage.Proofs.Script.RunChecking
import Lineage.Proofs.Text.Case

namespace Lineage

/-! ## Names of built-in functions -/

/-- A call is of a built-in function if the name is that of one, in any case. -/
theorem Builtin.find?_lower {name : List Char} (h : ∀ c ∈ name, Script.isIdentChar c = true) :
    (Builtin.find? (String.ofList (Text.lower name))).isSome = true ↔
      ∃ f : Builtin, f.name = Script.Names.fold (String.ofList name) := by
  have hlower := Text.lower_lower fun c hc => Script.identChar_lt (h c hc)
  have hall : ∀ f : Builtin, f ∈ Builtin.all := by
    intro f
    cases f <;> decide
  simp only [Builtin.find?, String.toList_ofList, hlower, List.find?_isSome, decide_eq_true_eq,
    Script.Names.fold]
  constructor
  · rintro ⟨f, -, hf⟩
    exact ⟨f, by rw [← hf, String.ofList_toList]⟩
  · rintro ⟨f, hf⟩
    exact ⟨f, hall f, by rw [hf, String.toList_ofList]⟩

namespace Script

/-! ## Trees that are ready to be read -/

/-- An expression is taken if nothing is wrong with it that the reader would find.  It is then legal if
nothing is that the generator would find. -/
def ExprTaken (V : Finset String) (customErrors : Bool) (t : Tree Rule) : Prop :=
  t.rule = .expr → Checks V customErrors (readExpr t) [] (Everywhere (Readable customErrors) t)
    fun e => (e.Legal ↔ Everywhere Proper t) ∧ (e.Assignable ↔ Assignable t.children)

/-- A tree of the grammar whose variables are among `V`. -/
structure Legible (V : Finset String) (t : Tree Rule) : Prop where
  grown : t.Grown grammar
  known : Everywhere (fun u => ∀ name ∈ mentioned? u, name ∈ V) t

/-- A tree of the grammar whose expressions are taken. -/
structure Vetted (V : Finset String) (customErrors : Bool) (t : Tree Rule) : Prop extends Legible V t where
  taken : Everywhere (ExprTaken V customErrors) t

section

variable {V : Finset String} {customErrors : Bool} {r r' : Rule} {line column : Nat} {text : List Char}
  {t : Tree Rule} {ts us : List (Tree Rule)}

theorem Everywhere.inner {P : Tree Rule → Prop} (h : Everywhere P (.node r line column text ts)) :
    ∀ t ∈ ts, Everywhere P t :=
  everywhereIn_iff.mp (everywhere_node.mp h).2

theorem Legible.inner (h : Legible V (.node r line column text ts)) : ∀ t ∈ ts, Legible V t :=
  fun t ht => ⟨h.grown.inner t ht, h.known.inner t ht⟩

theorem Vetted.inner (h : Vetted V customErrors (.node r line column text ts)) :
    ∀ t ∈ ts, Vetted V customErrors t :=
  fun t ht => ⟨h.toLegible.inner t ht, h.taken.inner t ht⟩

/-- The variable that a tree names. -/
theorem Legible.name {l c : Nat} {name : List Char}
    (h : Legible V (.node r line column text (.node .ident l c name us :: ts)))
    (hr : r ∈ variableRules) : Names.fold (String.ofList name) ∈ V := by
  refine (everywhere_node.mp h.known).1 _ ?_
  rw [mentioned?, if_pos hr]
  rfl

/-- An expression inside. -/
theorem Vetted.expr (h : Vetted V customErrors t) (hr : t.rule = .expr) :
    Checks V customErrors (readExpr t) [] (Everywhere (Readable customErrors) t) fun e =>
      (e.Legal ↔ Everywhere Proper t) ∧ (e.Assignable ↔ Assignable t.children) := by
  cases t
  exact (everywhere_node.mp h.taken).1 hr

/-! ## What is inside a tree -/

theorem eq_node (h : t.rule = r) : ∃ line column text ts, t = .node r line column text ts := by
  obtain ⟨r', line, column, text, ts⟩ := t
  obtain rfl : r' = r := h
  exact ⟨line, column, text, ts, rfl⟩

theorem eq_one (h : ts.map Tree.rule = [r]) : ∃ t, ts = [t] ∧ t.rule = r := by
  obtain ⟨t, rest, rfl, ht, hrest⟩ := List.map_eq_cons_iff.mp h
  obtain rfl := List.map_eq_nil_iff.mp hrest
  exact ⟨t, rfl, ht⟩

theorem eq_cons {rs : List Rule} (h : ts.map Tree.rule = r :: rs) :
    ∃ t rest, ts = t :: rest ∧ t.rule = r ∧ rest.map Tree.rule = rs := by
  obtain ⟨t, rest, rfl, ht, hrest⟩ := List.map_eq_cons_iff.mp h
  exact ⟨t, rest, rfl, ht, hrest⟩

theorem eq_two (h : ts.map Tree.rule = [r, r']) : ∃ t t', ts = [t, t'] ∧ t.rule = r ∧ t'.rule = r' := by
  obtain ⟨t, rest, rfl, ht, hrest⟩ := eq_cons h
  obtain ⟨t', rfl, ht'⟩ := eq_one hrest
  exact ⟨t, t', rfl, ht, ht'⟩

theorem rule_of_map {P : Rule → Prop} (h : ∀ r ∈ ts.map Tree.rule, P r) : ∀ t ∈ ts, P t.rule :=
  fun t ht => h t.rule (List.mem_map_of_mem ht)

/-- Only these rules have something that the reader could find wrong. -/
theorem everywhere_readable (h : r ∉ [Rule.integer, .object, .errorCode, .scatterAssign]) :
    Everywhere (Readable customErrors) (.node r line column text ts) ↔
      EverywhereIn (Readable customErrors) ts := by
  refine everywhere_node.trans (and_iff_right ?_)
  cases r <;> trivial

/-- Only these rules have something that the generator could find wrong. -/
theorem everywhere_proper (h : r ∉ [Rule.builtinCall, .expr]) :
    Everywhere Proper (.node r line column text ts) ↔ EverywhereIn Proper ts := by
  refine everywhere_node.trans (and_iff_right ?_)
  cases r <;> trivial

/-- A tree without trees inside. -/
theorem Legible.leaf (h : Legible V (.node r line column text ts)) (hr : r.Holds = fun rs => rs = []) :
    ts = [] := by
  have := h.grown.holds
  rw [hr] at this
  exact List.map_eq_nil_iff.mp this

theorem Vetted.ident (h : Vetted V customErrors t) (hr : t.rule = .ident) :
    (Everywhere (Readable customErrors) t ↔ True) ∧ (Everywhere Proper t ↔ True) := by
  obtain ⟨line, column, text, ts, rfl⟩ := eq_node hr
  obtain rfl := h.leaf rfl
  rw [everywhere_readable (by decide), everywhere_proper (by decide)]
  exact ⟨iff_true_intro everywhereIn_nil, iff_true_intro everywhereIn_nil⟩

/-- The name of a variable. -/
theorem Vetted.slot (hV : V.card ≤ UInt16.size) {l c : Nat} {name : List Char} {parts : List (Tree Rule)}
    (h : Vetted V customErrors (.node r line column text (.node .ident l c name parts :: ts)))
    (hr : r ∈ variableRules) :
    Checks V customErrors (slotOf (String.ofList name)) []
      (Everywhere (Readable customErrors) (.node .ident l c name parts)) fun _ =>
        Everywhere Proper (.node .ident l c name parts) := by
  obtain ⟨hreadable, hproper⟩ := (h.inner _ List.mem_cons_self).ident rfl
  exact ((slotOf_checks hV (h.toLegible.name hr)).iff hreadable.symm).imp fun _ _ => hproper.mpr trivial

/-! ## Arguments, entries and targets -/

theorem readArgs_checks (h : ∀ t ∈ ts, Vetted V customErrors t ∧ t.rule = .argument) :
    Checks V customErrors (readArgs ts) [] (EverywhereIn (Readable customErrors) ts) fun args =>
      (Arg.LegalIn args ↔ EverywhereIn Proper ts) := by
  induction ts with
  | nil => exact (Checks.pure (iff_of_true trivial everywhereIn_nil)).iff (iff_of_true trivial everywhereIn_nil)
  | cons t rest ih =>
    obtain ⟨⟨ht, hrule⟩, hrest⟩ := List.forall_mem_cons.mp h
    obtain ⟨line, column, text, ts, rfl⟩ := eq_node hrule
    obtain ⟨e, rfl, he⟩ := eq_one ht.grown.holds
    have hexpr := (ht.inner e List.mem_cons_self).expr he
    unfold readArgs
    refine (hexpr.bind fun value hvalue => (ih hrest).bind fun args hargs => .pure ?_).iff ?_
    · rw [everywhereIn_cons, everywhere_proper (by decide), everywhereIn_cons,
        and_iff_left everywhereIn_nil, ← hvalue.1, ← hargs]
      split <;> exact Iff.rfl
    · rw [everywhereIn_cons, everywhere_readable (by decide), everywhereIn_cons,
        and_iff_left everywhereIn_nil, and_true]

theorem readArglist_checks (h : Vetted V customErrors (.node r line column text ts))
    (hr : r = .arglist ∨ r = .list) :
    Checks V customErrors (readArglist ts) []
      (Everywhere (Readable customErrors) (.node r line column text ts)) fun args =>
        (Arg.LegalIn args ↔ Everywhere Proper (.node r line column text ts)) := by
  have hholds : ts.map Tree.rule = [] ∨ ts.map Tree.rule = [.exprlist] := by
    rcases hr with rfl | rfl
    · exact h.grown.holds
    · exact h.grown.holds
  rw [everywhere_readable (by rcases hr with rfl | rfl <;> decide),
    everywhere_proper (by rcases hr with rfl | rfl <;> decide)]
  rcases hholds with hnone | hlist
  · obtain rfl := List.map_eq_nil_iff.mp hnone
    exact (Checks.pure (iff_of_true trivial everywhereIn_nil)).iff (iff_of_true trivial everywhereIn_nil)
  · obtain ⟨list, rfl, hrule⟩ := eq_one hlist
    have hlist := h.inner list List.mem_cons_self
    obtain ⟨line, column, text, args, rfl⟩ := eq_node hrule
    rw [everywhereIn_cons, everywhere_readable (by decide), everywhereIn_cons,
      everywhere_proper (by decide), and_iff_left everywhereIn_nil, and_iff_left everywhereIn_nil]
    exact readArgs_checks fun t ht => ⟨hlist.inner t ht, rule_of_map hlist.grown.holds t ht⟩

/-- The arguments of a call. -/
theorem arguments_checks (h : Vetted V customErrors t) (hr : t.rule = .arglist) :
    Checks V customErrors (readArglist t.children) [] (Everywhere (Readable customErrors) t) fun args =>
      (Arg.LegalIn args ↔ Everywhere Proper t) := by
  obtain ⟨line, column, text, ts, rfl⟩ := eq_node hr
  exact readArglist_checks h (.inl rfl)

theorem readEntries_checks : ∀ {ts : List (Tree Rule)},
    (∀ t ∈ ts, Vetted V customErrors t ∧ t.rule = .expr) → ts.length % 2 = 0 →
      Checks V customErrors (readEntries ts) [] (EverywhereIn (Readable customErrors) ts) fun entries =>
        (Expr.LegalIn entries ↔ EverywhereIn Proper ts)
  | [], _, _ =>
    (Checks.pure (iff_of_true trivial everywhereIn_nil)).iff (iff_of_true trivial everywhereIn_nil)
  | [_], _, heven => absurd heven (by simp)
  | key :: value :: rest, h, heven => by
    obtain ⟨⟨hkey, hkey'⟩, h⟩ := List.forall_mem_cons.mp h
    obtain ⟨⟨hvalue, hvalue'⟩, hrest⟩ := List.forall_mem_cons.mp h
    have heven : rest.length % 2 = 0 := by
      rw [List.length_cons, List.length_cons] at heven
      omega
    unfold readEntries
    refine ((hkey.expr hkey').bind fun k hk => (hvalue.expr hvalue').bind fun v hv =>
      (readEntries_checks hrest heven).bind fun entries hentries => .pure ?_).iff ?_
    · rw [everywhereIn_cons, everywhereIn_cons, ← hk.1, ← hv.1, ← hentries]
      exact Iff.rfl
    · rw [everywhereIn_cons, everywhereIn_cons, and_true]

/-- The rules of the targets of a scattering assignment. -/
def targetRules : List Rule := [.scatterOptional, .scatterRest, .scatterTarget]

/-- One target before others. -/
theorem readTarget_checks (hV : V.card ≤ UInt16.size) (h : Vetted V customErrors t)
    (hr : t.rule ∈ targetRules) :
    Checks V customErrors (readTarget t) [] (Everywhere (Readable customErrors) t) fun target =>
      ∀ more, (Target.LegalIn (target :: more) ↔ Everywhere Proper t ∧ Target.LegalIn more) ∧
        countRests (target :: more) = countRests more + if t.rule = .scatterRest then 1 else 0 := by
  obtain ⟨r, line, column, text, ts⟩ := t
  have hr : r ∈ targetRules := hr
  cases r with
  | scatterOptional =>
    rcases h.grown.holds with hts | hts
    · obtain ⟨name, rfl, hname⟩ := eq_one hts
      obtain ⟨_, _, _, _, rfl⟩ := eq_node hname
      simp only [readTarget]
      refine ((h.slot hV (by decide)).bind fun n hn => .pure fun more => ⟨?_, rfl⟩).iff ?_
      · simp [everywhere_readable]
      · simp [everywhere_proper, hn, Target.LegalIn]
    · obtain ⟨name, default, rfl, hname, hdefault⟩ := eq_two hts
      obtain ⟨_, _, _, _, rfl⟩ := eq_node hname
      have hexpr := (h.inner default (List.mem_cons_of_mem _ List.mem_cons_self)).expr hdefault
      simp only [readTarget]
      refine ((h.slot hV (by decide)).bind fun n hn => hexpr.bind fun e he =>
        .pure fun more => ⟨?_, rfl⟩).iff ?_
      · simp [everywhere_readable]
      · simp [everywhere_proper, hn, ← he.1, Target.LegalIn]
  | scatterRest =>
    obtain ⟨name, rfl, hname⟩ := eq_one h.grown.holds
    obtain ⟨_, _, _, _, rfl⟩ := eq_node hname
    simp only [readTarget]
    refine ((h.slot hV (by decide)).bind fun n hn => .pure fun more => ⟨?_, ?_⟩).iff ?_
    · simp [everywhere_readable]
    · simp [everywhere_proper, hn, Target.LegalIn]
    · exact List.countP_cons_of_pos rfl
  | scatterTarget =>
    obtain ⟨name, rfl, hname⟩ := eq_one h.grown.holds
    obtain ⟨_, _, _, _, rfl⟩ := eq_node hname
    simp only [readTarget]
    refine ((h.slot hV (by decide)).bind fun n hn => .pure fun more => ⟨?_, rfl⟩).iff ?_
    · simp [everywhere_readable]
    · simp [everywhere_proper, hn, Target.LegalIn]
  | _ => exact absurd hr (by decide)

theorem readTargets_checks (hV : V.card ≤ UInt16.size)
    (h : ∀ t ∈ ts, Vetted V customErrors t ∧ t.rule ∈ targetRules) :
    Checks V customErrors (readTargets ts) [] (EverywhereIn (Readable customErrors) ts) fun targets =>
      (Target.LegalIn targets ↔ EverywhereIn Proper ts) ∧
        countRests targets = ts.countP fun t => t.rule = .scatterRest := by
  induction ts with
  | nil =>
    exact (Checks.pure ⟨iff_of_true trivial everywhereIn_nil, rfl⟩).iff
      (iff_of_true trivial everywhereIn_nil)
  | cons t rest ih =>
    obtain ⟨⟨ht, hrule⟩, hrest⟩ := List.forall_mem_cons.mp h
    unfold readTargets
    refine ((readTarget_checks hV ht hrule).bind fun target htarget =>
      (ih hrest).bind fun targets htargets => .pure ?_).iff ?_
    · obtain ⟨hlegal, hcount⟩ := htarget targets
      refine ⟨?_, ?_⟩
      · rw [hlegal, htargets.1, everywhereIn_cons]
      · rw [hcount, htargets.2, List.countP_cons]
        simp only [decide_eq_true_eq]
    · rw [everywhereIn_cons, and_true]

end

end Script

end Lineage

namespace Lineage.Script

section

variable {V : Finset String} {customErrors : Bool} {r : Rule} {line column : Nat} {text : List Char}
  {t : Tree Rule} {ts : List (Tree Rule)}

/-! ## Operands -/

/-- Of the operands only a variable can be assigned, or what can be in parentheses. -/
theorem assignable_singleton (hr : r ∈ Rules.primaries) :
    Assignable [.node r line column text ts] ↔
      (r = .atom ∧ ∃ l c x parts, ts = [.node .ident l c x parts]) ∨
        r = .parenExpr ∧ ∃ l c x run, ts = [.node .expr l c x run] ∧ Assignable run := by
  constructor
  · intro h
    generalize heq : [Tree.node r line column text ts] = run at h
    cases h with
    | name =>
      cases heq
      exact .inl ⟨rfl, _, _, _, _, rfl⟩
    | parens hrun =>
      cases heq
      exact .inr ⟨rfl, _, _, _, _, rfl, hrun⟩
    | @property run u hu h =>
      obtain ⟨-, hlast⟩ := List.append_inj' (show [] ++ [_] = run ++ [u] from heq) rfl
      obtain rfl := (List.cons.inj hlast).1
      rcases hu with rfl | rfl <;> exact absurd hr (by decide)
    | @element run u hu h =>
      obtain ⟨-, hlast⟩ := List.append_inj' (show [] ++ [_] = run ++ [u] from heq) rfl
      obtain rfl := (List.cons.inj hlast).1
      obtain rfl : r = _ := hu
      exact absurd hr (by decide)
  · rintro (⟨rfl, _, _, _, _, rfl⟩ | ⟨rfl, _, _, _, _, rfl, hrun⟩)
    · exact .name ..
    · exact .parens hrun ..

/-- An operand that cannot be assigned. -/
theorem operand_checked (hr : r ∈ Rules.primaries) (hne : r ≠ .atom ∧ r ≠ .parenExpr)
    {read : Reading Expr}
    (h : Checks V customErrors read [] (Everywhere (Readable customErrors) (.node r line column text ts))
      fun e => (e.Legal ↔ Everywhere Proper (.node r line column text ts)) ∧ ¬ e.Assignable) :
    (Piece.operand read).Checked V customErrors (.node r line column text ts) := by
  refine ⟨hr, h.imp fun e he => ⟨he.1, iff_of_false he.2 ?_⟩⟩
  rw [assignable_singleton hr]
  rintro (⟨rfl, -⟩ | ⟨rfl, -⟩)
  · exact hne.1 rfl
  · exact hne.2 rfl

theorem atom_checked (hV : V.card ≤ UInt16.size)
    (h : Vetted V customErrors (.node .atom line column text ts)) :
    (piece (.node .atom line column text ts)).Checked V customErrors (.node .atom line column text ts) := by
  obtain ⟨kind, hkind, hmem⟩ := h.grown.holds
  obtain ⟨leaf, rfl, hleaf⟩ := eq_one hkind
  have hvetted := h.inner leaf List.mem_cons_self
  obtain ⟨l, c, x, parts, rfl⟩ := eq_node hleaf
  have hprimary : Rule.atom ∈ Rules.primaries := by decide
  have hmem : kind ∈ literalRules ++ [.ident] := hmem
  have hsealed : ∀ r ∈ literalRules ++ [.ident],
      (Rules.body r).spacing = some .sealed ∧ r ∉ [Rule.builtinCall, .expr] := by
    decide
  obtain ⟨rfl, -⟩ := hvetted.grown.spells (hsealed kind hmem).1
  -- All that can be wrong with a literal the reader finds.
  have hreadable : Everywhere (Readable customErrors) (.node .atom line column text [.node kind l c x []]) ↔
      Readable customErrors (.node kind l c x []) := by
    rw [everywhere_readable (by decide), everywhereIn_cons, and_iff_left everywhereIn_nil, everywhere_node,
      and_iff_left everywhereIn_nil]
  have hproper : Everywhere Proper (.node .atom line column text [.node kind l c x []]) ↔ True := by
    rw [everywhere_proper (by decide), everywhereIn_cons, everywhere_proper (hsealed kind hmem).2,
      and_iff_left everywhereIn_nil]
    exact iff_true_intro everywhereIn_nil
  simp only [piece]
  by_cases hident : kind = .ident
  · subst hident
    refine ⟨hprimary, ((slotOf_checks hV (h.toLegible.name (by decide))).bind fun n _ =>
      .pure ⟨?_, ?_⟩).iff ?_⟩
    · rw [hreadable]
      exact and_self_iff
    · rw [hproper]
      exact Iff.rfl
    · exact iff_of_true trivial (.name ..)
  · have hliteral : kind ∈ literalRules :=
      (List.mem_append.mp hmem).resolve_right fun h => hident (List.mem_singleton.mp h)
    refine ⟨hprimary, ((readAtom_checks hvetted.grown hliteral).iff hreadable.symm).imp
      fun e he => ⟨?_, iff_of_false he.2 ?_⟩⟩
    · rw [hproper]
      exact iff_true_intro he.1
    · rw [assignable_singleton hprimary]
      rintro (⟨-, _, _, _, _, heq⟩ | ⟨hne, -⟩)
      · cases heq
        exact hident rfl
      · cases hne

theorem primary_checked (hV : V.card ≤ UInt16.size)
    (h : Vetted V customErrors (.node r line column text ts)) (hr : r ∈ Rules.primaries) :
    (piece (.node r line column text ts)).Checked V customErrors (.node r line column text ts) := by
  cases r with
  | parenExpr =>
    obtain ⟨e, rfl, he⟩ := eq_one h.grown.holds
    have hexpr := (h.inner e List.mem_cons_self).expr he
    obtain ⟨l, c, x, run, rfl⟩ := eq_node he
    simp only [piece]
    refine ⟨hr, (hexpr.iff ?_).imp fun value hvalue => ⟨?_, ?_⟩⟩
    · rw [everywhere_readable (r := .parenExpr) (by decide), everywhereIn_cons,
        and_iff_left everywhereIn_nil]
    · rw [hvalue.1, everywhere_proper (r := .parenExpr) (by decide), everywhereIn_cons,
        and_iff_left everywhereIn_nil]
    · rw [hvalue.2, assignable_singleton hr]
      simp [Tree.children]
  | list =>
    simp only [piece]
    refine operand_checked hr (by decide)
      (((readArglist_checks h (.inr rfl)).bind fun args hargs => .pure ⟨hargs, id⟩).iff ?_)
    rw [and_true]
  | map =>
    obtain ⟨hrules, heven⟩ := h.grown.holds
    rw [List.length_map] at heven
    have hentries := readEntries_checks (fun t ht => ⟨h.inner t ht, rule_of_map hrules t ht⟩) heven
    simp only [piece]
    refine operand_checked hr (by decide)
      ((hentries.bind fun entries hentries => .pure ⟨?_, id⟩).iff ?_)
    · rw [everywhere_readable (by decide), and_true]
    · rw [everywhere_proper (by decide)]
      exact hentries
  | builtinCall =>
    obtain ⟨name, arglist, rfl, hname, harglist⟩ := eq_two h.grown.holds
    have hargs := arguments_checks (h.inner arglist (List.mem_cons_of_mem _ List.mem_cons_self)) harglist
    have hident := h.inner name List.mem_cons_self
    obtain ⟨hreadable, hproper⟩ := hident.ident hname
    obtain ⟨l, c, x, args, rfl⟩ := eq_node harglist
    obtain ⟨l', c', x', parts, rfl⟩ := eq_node hname
    simp only [piece]
    refine operand_checked hr (by decide)
      ((hargs.bind fun args hargs => .pure ⟨?_, id⟩).iff ?_)
    · rw [everywhere_readable (r := .builtinCall) (by decide), everywhereIn_cons, hreadable,
        everywhereIn_cons, and_iff_left everywhereIn_nil, true_and, and_true]
    · rw [everywhere_node, everywhereIn_cons, hproper, everywhereIn_cons, and_iff_left everywhereIn_nil,
        true_and, ← hargs]
      exact and_congr_left' (Builtin.find?_lower (ident_spelled hident.grown))
  | sysprop =>
    obtain ⟨name, rfl, hname⟩ := eq_one h.grown.holds
    obtain ⟨hreadable, hproper⟩ :=
      (h.inner name List.mem_cons_self).ident hname
    obtain ⟨l, c, x, parts, rfl⟩ := eq_node hname
    simp only [piece]
    refine operand_checked hr (by decide) ((Checks.pure ⟨?_, id⟩).iff ?_)
    · rw [everywhere_readable (r := .sysprop) (by decide), everywhereIn_cons, hreadable,
        and_iff_left everywhereIn_nil]
    · rw [everywhere_proper (r := .sysprop) (by decide), everywhereIn_cons, hproper,
        and_iff_left everywhereIn_nil]
      exact iff_of_true ⟨rfl, trivial, trivial⟩ trivial
  | atom =>
    exact atom_checked hV h
  | _ => exact absurd hr (by decide)

/-! ## Operators -/

theorem prefix_checked (hV : V.card ≤ UInt16.size)
    (h : Vetted V customErrors (.node r line column text ts)) (hr : r ∈ Rules.prefixOps) :
    (piece (.node r line column text ts)).Checked V customErrors (.node r line column text ts) := by
  cases r with
  | neg =>
    obtain rfl := h.leaf rfl
    simp only [piece]
    refine ⟨hr, rfl, fun e => (Checks.pure ⟨?_, id⟩).iff ?_⟩
    · rw [everywhere_readable (by decide)]
      exact iff_of_true trivial everywhereIn_nil
    · rw [everywhere_proper (by decide), and_iff_left everywhereIn_nil]
      exact Iff.rfl
  | not =>
    obtain rfl := h.leaf rfl
    simp only [piece]
    refine ⟨hr, rfl, fun e => (Checks.pure ⟨?_, id⟩).iff ?_⟩
    · rw [everywhere_readable (by decide)]
      exact iff_of_true trivial everywhereIn_nil
    · rw [everywhere_proper (by decide), and_iff_left everywhereIn_nil]
      exact Iff.rfl
  | scatterAssign =>
    have htargets := readTargets_checks hV fun t ht =>
      ⟨h.inner t ht, rule_of_map h.grown.holds t ht⟩
    simp only [piece]
    refine ⟨hr, rfl, fun e => ?_⟩
    -- What is left to see once the targets are taken is how many of them take the rest.
    have hcount (targets : List Target) (htargets : (Target.LegalIn targets ↔ EverywhereIn Proper ts) ∧
        countRests targets = ts.countP fun t => t.rule = .scatterRest) :
        Checks V customErrors (do
            if 1 < countRests targets then throw .invalidAssignment
            return Expr.scatter targets e) []
          ((ts.countP fun t => t.rule = .scatterRest) ≤ 1) fun e' =>
            (e'.Legal ↔ e.Legal ∧ Everywhere Proper (.node .scatterAssign line column text ts)) ∧
              ¬ e'.Assignable := by
      rw [← htargets.2]
      split
      · exact Checks.throw.iff (iff_of_false id (by omega))
      · refine (Checks.pure ⟨?_, id⟩).iff (iff_of_true trivial (by omega))
        rw [everywhere_proper (by decide), ← htargets.1]
        exact Iff.rfl
    refine (htargets.bind hcount).iff ?_
    rw [everywhere_node, and_comm]
    exact Iff.rfl
  | _ => exact absurd hr (by decide)

theorem infix_checked (h : Vetted V customErrors (.node r line column text ts)) (hr : r ∈ Rules.infixOps) :
    (piece (.node r line column text ts)).Checked V customErrors (.node r line column text ts) := by
  have hplace := hr
  simp only [Rules.infixOps, List.mem_cons, List.not_mem_nil, or_false] at hr
  rcases hr with rfl | rfl | rfl | rfl | rfl | rfl | rfl | rfl | rfl | rfl | rfl | rfl | rfl | rfl | rfl
  all_goals
    obtain rfl := h.leaf rfl
    refine ⟨hplace, by decide, by decide, (everywhere_readable (by decide)).mpr everywhereIn_nil,
      (everywhere_proper (by decide)).mpr everywhereIn_nil, fun a b => ⟨Iff.rfl, id⟩⟩

/-- A postfix operator that has expressions and arguments inside. -/
theorem after_checked {strength : Nat} {apply : Reading (Expr → Expr)} (hr : r ∈ Rules.postfixOps)
    (hstrength : strength = if r = .assign then Strength.assignment
      else if r = .condExpr then Strength.conditional else Strength.access)
    (happly : Checks V customErrors apply [] (EverywhereIn (Readable customErrors) ts) fun f => ∀ e,
      ((f e).Legal ↔ e.Legal ∧ EverywhereIn Proper ts ∧ (r = .assign → e.Assignable)) ∧
      ((f e).Assignable ↔ r = .prop ∨ r = .propExpr ∨ r = .indexSingle ∧ e.Assignable)) :
    (Piece.after strength apply).Checked V customErrors (.node r line column text ts) := by
  have hplain : ∀ r ∈ Rules.postfixOps,
      r ∉ [Rule.integer, .object, .errorCode, .scatterAssign] ∧ r ∉ [Rule.builtinCall, .expr] := by
    decide
  obtain ⟨hreadable, hproper⟩ := hplain r hr
  refine ⟨hr, hstrength, (happly.iff (everywhere_readable hreadable).symm).imp fun f hf e => ?_⟩
  rw [everywhere_proper hproper]
  exact hf e

theorem postfix_checked (h : Vetted V customErrors (.node r line column text ts))
    (hr : r ∈ Rules.postfixOps) :
    (piece (.node r line column text ts)).Checked V customErrors (.node r line column text ts) := by
  have hone {t : Tree Rule} {rest : List (Tree Rule)} (h : ∀ u ∈ t :: rest, Vetted V customErrors u) :
      Vetted V customErrors t :=
    h t List.mem_cons_self
  have htwo {t t' : Tree Rule} {rest : List (Tree Rule)} (h : ∀ u ∈ t :: t' :: rest, Vetted V customErrors u) :
      Vetted V customErrors t ∧ Vetted V customErrors t' :=
    ⟨h t List.mem_cons_self, h t' (List.mem_cons_of_mem _ List.mem_cons_self)⟩
  cases r with
  | indexRange =>
    obtain ⟨first, last, rfl, hfirst, hlast⟩ := eq_two h.grown.holds
    obtain ⟨hvetted, hvetted'⟩ := htwo h.inner
    simp only [piece]
    refine after_checked hr rfl (((hvetted.expr hfirst).bind fun f hf =>
      (hvetted'.expr hlast).bind fun l hl => .pure fun e => ⟨?_, ?_⟩).iff ?_)
    · simp
    · simp [← hf.1, ← hl.1, Expr.Legal]
    · simp [Expr.Assignable]
  | indexSingle =>
    obtain ⟨index, rfl, hindex⟩ := eq_one h.grown.holds
    simp only [piece]
    refine after_checked hr rfl ((((hone h.inner).expr hindex).bind fun i hi =>
      .pure fun e => ⟨?_, ?_⟩).iff ?_)
    · simp
    · simp [← hi.1, Expr.Legal]
    · simp [Expr.Assignable]
  | verbCall =>
    obtain ⟨name, arglist, rfl, hname, harglist⟩ := eq_two h.grown.holds
    obtain ⟨hvetted, hvetted'⟩ := htwo h.inner
    obtain ⟨hreadable, hproper⟩ := hvetted.ident hname
    have hargs := arguments_checks hvetted' harglist
    obtain ⟨_, _, _, parts, rfl⟩ := eq_node hname
    obtain ⟨_, _, _, args, rfl⟩ := eq_node harglist
    simp only [piece]
    refine after_checked hr rfl ((hargs.bind fun args hargs => .pure fun e => ⟨?_, ?_⟩).iff ?_)
    · simp [hreadable]
    · simp [hproper, ← hargs, Expr.Legal]
    · simp [Expr.Assignable]
  | verbExprCall =>
    obtain ⟨name, arglist, rfl, hname, harglist⟩ := eq_two h.grown.holds
    obtain ⟨hvetted, hvetted'⟩ := htwo h.inner
    have hargs := arguments_checks hvetted' harglist
    obtain ⟨_, _, _, args, rfl⟩ := eq_node harglist
    simp only [piece]
    refine after_checked hr rfl (((hvetted.expr hname).bind fun name hname =>
      hargs.bind fun args hargs => .pure fun e => ⟨?_, ?_⟩).iff ?_)
    · simp
    · simp [← hname.1, ← hargs, Expr.Legal]
    · simp [Expr.Assignable]
  | propExpr =>
    obtain ⟨name, rfl, hname⟩ := eq_one h.grown.holds
    simp only [piece]
    refine after_checked hr rfl ((((hone h.inner).expr hname).bind fun name hname =>
      .pure fun e => ⟨?_, ?_⟩).iff ?_)
    · simp
    · simp [← hname.1, Expr.Legal]
    · simp [Expr.Assignable]
  | prop =>
    obtain ⟨name, rfl, hname⟩ := eq_one h.grown.holds
    obtain ⟨hreadable, hproper⟩ := (hone h.inner).ident hname
    obtain ⟨_, _, _, parts, rfl⟩ := eq_node hname
    simp only [piece]
    refine after_checked hr rfl ((Checks.pure fun e => ⟨?_, ?_⟩).iff ?_)
    · simp [hreadable]
    · simp [hproper, Expr.Legal]
    · simp [Expr.Assignable]
  | assign =>
    obtain ⟨right, rfl, hright⟩ := eq_one h.grown.holds
    simp only [piece]
    refine after_checked hr rfl ((((hone h.inner).expr hright).bind fun right hright =>
      .pure fun e => ⟨?_, ?_⟩).iff ?_)
    · simp
    · simp only [everywhereIn_cons, everywhereIn_nil, ← hright.1, Expr.Legal]
      tauto
    · simp [Expr.Assignable]
  | condExpr =>
    obtain ⟨consequence, alternative, rfl, hconsequence, halternative⟩ := eq_two h.grown.holds
    obtain ⟨hvetted, hvetted'⟩ := htwo h.inner
    simp only [piece]
    refine after_checked hr rfl (((hvetted.expr hconsequence).bind fun c hc =>
      (hvetted'.expr halternative).bind fun a ha => .pure fun e => ⟨?_, ?_⟩).iff ?_)
    · simp
    · simp [← hc.1, ← ha.1, Expr.Legal]
    · simp [Expr.Assignable]
  | _ => exact absurd hr (by decide)

/-! ## Whole expressions -/

/-- Every rule in a run has a place in it. -/
theorem Rule.InRun.mem {rs : List Rule} {expecting : Bool} (h : InRun expecting rs) : ∀ r ∈ rs,
    r ∈ Rules.prefixOps ∨ r ∈ Rules.primaries ∨ r ∈ Rules.postfixOps ∨ r ∈ Rules.infixOps := by
  induction rs generalizing expecting with
  | nil => exact nofun
  | cons r rs ih =>
    cases expecting with
    | true =>
      rcases h with ⟨hr, h⟩ | ⟨hr, h⟩
      · exact List.forall_mem_cons.mpr ⟨.inl hr, ih h⟩
      · exact List.forall_mem_cons.mpr ⟨.inr (.inl hr), ih h⟩
    | false =>
      rcases h with ⟨hr, h⟩ | ⟨hr, h⟩
      · exact List.forall_mem_cons.mpr ⟨.inr (.inr (.inl hr)), ih h⟩
      · exact List.forall_mem_cons.mpr ⟨.inr (.inr (.inr hr)), ih h⟩

/-- An expression is taken if those inside are. -/
theorem expr_taken (hV : V.card ≤ UInt16.size) (hgrown : Legible V (.node .expr line column text ts))
    (hin : ∀ t ∈ ts, Vetted V customErrors t) :
    ExprTaken V customErrors (.node .expr line column text ts) := by
  intro _
  have horder : Rule.InRun true (ts.map Tree.rule) := hgrown.grown.holds
  have hchecked : ∀ t ∈ ts, (piece t).Checked V customErrors t := by
    intro t ht
    have hvetted := hin t ht
    have hplace := rule_of_map horder.mem t ht
    obtain ⟨r, l, c, x, us⟩ := t
    rcases hplace with hr | hr | hr | hr
    · exact prefix_checked hV hvetted hr
    · exact primary_checked hV hvetted hr
    · exact postfix_checked hvetted hr
    · exact infix_checked hvetted hr
  rw [everywhere_readable (by decide), everywhere_node, and_comm]
  exact readAll_checks ⟨hchecked, horder⟩

mutual

/-- Every expression in a tree of the grammar is taken. -/
theorem Legible.vetted (hV : V.card ≤ UInt16.size) {t : Tree Rule} (h : Legible V t) :
    Vetted V customErrors t := by
  match t with
  | .node r line column text ts =>
    have hin : ∀ t ∈ ts, Vetted V customErrors t := Legible.vettedIn hV h.inner
    refine ⟨h, everywhere_node.mpr ⟨?_, everywhereIn_iff.mpr fun t ht => (hin t ht).taken⟩⟩
    intro hr
    obtain rfl : r = .expr := hr
    exact expr_taken hV h hin rfl

theorem Legible.vettedIn (hV : V.card ≤ UInt16.size) {ts : List (Tree Rule)} (h : ∀ t ∈ ts, Legible V t) :
    ∀ t ∈ ts, Vetted V customErrors t := by
  match ts with
  | [] => exact nofun
  | t :: ts =>
    obtain ⟨ht, hts⟩ := List.forall_mem_cons.mp h
    exact List.forall_mem_cons.mpr ⟨ht.vetted hV, Legible.vettedIn hV hts⟩

end

end

end Lineage.Script
