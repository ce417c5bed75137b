/-
  Lineage.Proofs.Program.WellFormed

  Which scripts compile.

  A script that the grammar takes is turned into a program unless it has a flaw
  (`Script.Flaw`).  The reader finds some flaws and the generator the others: what each of
  them lets pass is in `Script.StmtChecking` and in `Program.Acceptance`, and here the two
  are put together.
-/
import Lineage.Proofs.Program.Acceptance
import Lineage.Proofs.Script.StmtChecking

namespace Lineage

namespace Script

section

variable {customErrors : Bool} {trees : List (Tree Rule)} {t : Tree Rule}

/-! ## What is not a flaw -/

/-- What the reader finds wrong with a tree. -/
theorem not_readable : ¬ Readable customErrors t ↔
    (t.rule = .integer ∧ 2 ^ 63 ≤ decimal t.text.toList) ∨
      (t.rule = .object ∧ (objectNumber t.text.toList < -2 ^ 63 ∨ 2 ^ 63 ≤ objectNumber t.text.toList)) ∨
      (t.rule = .errorCode ∧ customErrors = false ∧ ∀ e ∈ ErrorCode.builtins, e.2.1 ≠ t.text) ∨
      t.rule = .scatterAssign ∧ 1 < t.children.countP fun u => u.rule = .scatterRest := by
  obtain ⟨r, line, column, text, ts⟩ := t
  cases r with
  | integer => simp [Readable, Tree.rule, Tree.text]
  | object => simp [Readable, Tree.rule, Tree.text, imp_iff_not_or]
  | errorCode =>
    simp only [Readable, not_or, Bool.not_eq_true, not_exists, not_and, Tree.rule, Tree.text, true_and,
      reduceCtorEq, false_and, or_false, false_or, ne_eq]
  | scatterAssign => simp [Readable, Tree.rule, Tree.children]
  | _ => simp [Readable, Tree.rule]

/-- What the generator finds wrong with a tree, other than `break` and `continue`. -/
theorem not_proper : ¬ Proper t ↔
    (t.rule = .builtinCall ∧ ∃ name, t.children.head? = some name ∧
      ∀ f : Builtin, f.name ≠ Names.fold name.text) ∨
      t.rule = .expr ∧ ∃ before sign after, t.children = before ++ sign :: after ∧
        sign.rule = .assign ∧ ¬ Assignable (assigned before) := by
  obtain ⟨r, line, column, text, ts⟩ := t
  cases r with
  | builtinCall => cases ts <;> simp [Proper, Tree.rule, Tree.children]
  | expr => simp [Proper, Tree.rule, Tree.children, AssignsPlaces]
  | _ => simp [Proper, Tree.rule]

/-- A script has a flaw if the reader finds something wrong with it, a variable that `let` introduces
is not new, or the generator finds something wrong. -/
theorem flaw_iff : Flaw customErrors trees ↔
    ¬ (EverywhereIn (Readable customErrors) trees ∧ (GlobalName.texts ++ declarations trees).Nodup ∧
      CleanIn false trees) := by
  constructor
  · rintro h ⟨hreadable, hfresh, hproper, hlooped⟩
    have hlooped : LoopedIn false trees := hlooped.resolve_left (by decide)
    cases h with
    | integer ht hr h => exact not_readable.mpr (.inl ⟨hr, h⟩) (hreadable _ ht)
    | object ht hr h => exact not_readable.mpr (.inr (.inl ⟨hr, h⟩)) (hreadable _ ht)
    | error ht hr hoff h => exact not_readable.mpr (.inr (.inr (.inl ⟨hr, hoff, h⟩))) (hreadable _ ht)
    | rests ht hr h => exact not_readable.mpr (.inr (.inr (.inr ⟨hr, h⟩))) (hreadable _ ht)
    | bound hname h => exact (List.nodup_append.mp hfresh).2.2 _ h _ hname rfl
    | twice h => exact h hfresh.of_append_right
    | unknown ht hr hname h => exact not_proper.mpr (.inl ⟨hr, _, hname, h⟩) (hproper _ ht)
    | target ht hr hrun hsign h =>
      exact not_proper.mpr (.inr ⟨hr, _, _, _, hrun, hsign, h⟩) (hproper _ ht)
    | stray ht h => exact h.elim (hlooped _ ht).1 (hlooped _ ht).2
  · intro h
    by_contra hno
    apply h
    refine ⟨fun t ht => ?_, ?_, fun t ht => ?_, .inr fun t ht => ?_⟩
    · by_contra hbad
      rcases not_readable.mp hbad with ⟨hr, hbad⟩ | ⟨hr, hbad⟩ | ⟨hr, hoff, hbad⟩ | ⟨hr, hbad⟩
      · exact hno (.integer ht hr hbad)
      · exact hno (.object ht hr hbad)
      · exact hno (.error ht hr hoff hbad)
      · exact hno (.rests ht hr hbad)
    · refine List.nodup_append.mpr ⟨by decide, by_contra fun hbad => hno (.twice hbad), ?_⟩
      rintro name hglobal _ hname rfl
      exact hno (.bound hname hglobal)
    · by_contra hbad
      rcases not_proper.mp hbad with ⟨hr, name, hname, hbad⟩ | ⟨hr, before, sign, after, hrun, hsign, hbad⟩
      · exact hno (.unknown ht hr hname hbad)
      · exact hno (.target ht hr hrun hsign hbad)
    · exact ⟨fun hr => hno (.stray ht (.inl hr)), fun hr => hno (.stray ht (.inr hr))⟩

/-! ## What compiles -/

/-- Before anything is read only the variables bound from the start are known. -/
theorem Scope.Knows.start {V : Finset String} (h : ∀ name ∈ GlobalName.texts, name ∈ V) :
    (⟨.initial, [], customErrors⟩ : Scope).Knows V customErrors [] where
  distinct := show GlobalName.texts.Nodup by decide
  within name hname := h name (List.mem_toArray.mp hname)
  initial := .refl _
  customErrors := rfl
  declared := rfl
  fresh := show (GlobalName.texts ++ []).Nodup by decide

/-- The variables of a script, those bound from the start included. -/
def variableNames (trees : List (Tree Rule)) : Finset String :=
  (GlobalName.texts ++ mentioned trees).toFinset

end

end Script

open Script

section

variable {source : String} {customErrors : Bool} {c : Cursor} {trees : List (Tree Rule)}

/-- What comes of the statements of a script. -/
theorem compile_of_parse {line column : Nat} {text : List Char} {block : Tree Rule}
    {rest : List (Tree Rule)}
    (hparse : (grammar.parse .program source.toList).2 =
      some (c, [.node .program line column text (block :: rest)])) :
    Program.compile source customErrors =
      (readBlock block ⟨.initial, [], customErrors⟩).bind fun r =>
        SyntaxTree.compile ⟨r.1, r.2.names⟩ := by
  obtain ⟨_, _, _, _, statements⟩ := block
  unfold Program.compile SyntaxTree.read
  dsimp only
  generalize grammar.parse .program source.toList = parsed at hparse ⊢
  obtain ⟨failures, result⟩ := parsed
  obtain rfl := hparse
  simp only [readBlock]
  cases hrun : readStatements statements ⟨.initial, [], customErrors⟩ with
  | error e =>
    have hread : (readStatements statements).run ⟨.initial, [], customErrors⟩ = .error e := hrun
    rw [hread]
    rfl
  | ok r =>
    have hread : (readStatements statements).run ⟨.initial, [], customErrors⟩ = .ok r := hrun
    rw [hread]
    rfl

/-- A script in the grammar compiles exactly if neither the reader nor the generator finds something
wrong with it. -/
theorem Program.compile_isOk_iff (hparse : (grammar.parse .program source.toList).2 = some (c, trees))
    (hnames : (variableNames trees).card ≤ UInt16.size) :
    (∃ p, Program.compile source customErrors = .ok p) ↔
      EverywhereIn (Readable customErrors) trees ∧ (GlobalName.texts ++ declarations trees).Nodup ∧
        CleanIn false trees := by
  obtain ⟨t, rfl, hr, hgrown⟩ := grown_of_parse hparse
  obtain ⟨line, column, text, ts, rfl⟩ := eq_node hr
  obtain ⟨block, finish, rfl, hblock, hfinish⟩ := eq_two hgrown.holds
  generalize hV : variableNames [.node .program line column text [block, finish]] = V at hnames
  have hlegible : Legible V (.node .program line column text [block, finish]) := by
    refine ⟨hgrown, fun u hu name hname => ?_⟩
    rw [← hV, variableNames, List.mem_toFinset, List.mem_append]
    refine .inr (List.mem_filterMap.mpr ⟨u, ?_, hname⟩)
    rwa [Tree.nodesIn, Tree.nodesIn, List.append_nil]
  have hprepared : Prepared V customErrors (.node .program line column text [block, finish]) :=
    (hlegible.vetted hnames).prepared hnames
  have hchecks := (Prepared.first hprepared.inner).block hblock
  -- Beside its statements a script has only its end, which brings nothing.
  have hend := Prepared.first (Prepared.later hprepared.inner)
  have hquiet : finish.rule ∉ stmtRules := by
    rw [hfinish]
    decide
  have hlets : declarations [.node .program line column text [block, finish]] = declarations [block] := by
    rw [declarations_node (by decide), declarations_cons_cons, (hend.quiet hquiet).1, List.append_nil]
  have hplain : (Everywhere (Readable customErrors) finish ↔ True) ∧ (Everywhere Proper finish ↔ True) := by
    obtain ⟨l, c, x, parts, rfl⟩ := eq_node hfinish
    obtain rfl := hend.leaf rfl
    rw [everywhere_readable (by decide), everywhere_proper (by decide)]
    exact ⟨iff_true_intro everywhereIn_nil, iff_true_intro everywhereIn_nil⟩
  have hreadable : EverywhereIn (Readable customErrors) [.node .program line column text [block, finish]] ↔
      Everywhere (Readable customErrors) block := by
    rw [everywhereIn_cons, everywhere_readable (by decide), everywhereIn_cons, everywhereIn_cons, hplain.1]
    simp
  have hclean : CleanIn false [.node .program line column text [block, finish]] ↔ Clean false block := by
    rw [cleanIn_cons, clean_node (by decide), cleanIn_cons, cleanIn_cons, hend.clean hquiet, hplain.2]
    simp
  rw [hlets, hreadable, hclean, compile_of_parse hparse]
  have hstart : (⟨.initial, [], customErrors⟩ : Script.Scope).Knows V customErrors [] := by
    refine .start fun name hname => ?_
    rw [← hV, variableNames, List.mem_toFinset]
    exact List.mem_append_left _ hname
  have hrun := hchecks [] _ hstart
  rw [List.nil_append] at hrun
  cases hread : readBlock block ⟨.initial, [], customErrors⟩ with
  | error e =>
    rw [hread] at hrun
    exact ⟨fun ⟨_, h⟩ => (nomatch h), fun ⟨hreadable, hfresh, _⟩ => absurd ⟨hreadable, hfresh⟩ hrun⟩
  | ok r =>
    rw [hread] at hrun
    obtain ⟨hreadable, hlegal, hknows⟩ := hrun
    exact (SyntaxTree.compile_isOk ⟨r.1, r.2.names⟩).trans <| (hlegal false).trans
      ⟨fun hclean => ⟨hreadable, hknows.fresh, hclean⟩, fun h => h.2.2⟩

/-- A script that the grammar takes compiles exactly if it has no flaw, as long as the table of its
variables, those bound from the start included, has a slot for each. -/
theorem Program.compile_fails_iff (hparse : (grammar.parse .program source.toList).2 = some (c, trees))
    (hnames : (variableNames trees).card ≤ UInt16.size) :
    (∃ e, Program.compile source customErrors = .error e) ↔ Flaw customErrors trees := by
  rw [flaw_iff, ← Program.compile_isOk_iff hparse hnames]
  cases Program.compile source customErrors with
  | error e => exact ⟨fun _ ⟨_, h⟩ => (nomatch h), fun _ => ⟨e, rfl⟩⟩
  | ok p => exact ⟨fun ⟨_, h⟩ => (nomatch h), fun h => absurd ⟨p, rfl⟩ h⟩

/-- A script with two `let` of one variable, in different cases. -/
def declaringTwice : String := "let hp = 1; while (hp) break; endwhile let HP = 2;"

theorem Program.compile_fails_iff_declaringTwice :
    ∃ c trees, (grammar.parse .program declaringTwice.toList).2 = some (c, trees) ∧
      (variableNames trees).card ≤ UInt16.size ∧
      (∃ e, Program.compile declaringTwice false = .error e) ∧ Flaw false trees := by
  have hparse : ((grammar.parse .program declaringTwice.toList).2.any fun r =>
      (GlobalName.texts ++ mentioned r.2).length ≤ UInt16.size) = true := by
    decide +kernel
  have hfails : (Program.compile declaringTwice false).isOk = false := by decide +kernel
  obtain ⟨⟨c, trees⟩, hparse, hlength⟩ := Option.any_eq_true _ _ |>.mp hparse
  have hnames : (variableNames trees).card ≤ UInt16.size :=
    (List.toFinset_card_le _).trans (of_decide_eq_true hlength)
  have herror : ∃ e, Program.compile declaringTwice false = .error e := by
    cases hcompile : Program.compile declaringTwice false with
    | error e => exact ⟨e, rfl⟩
    | ok p =>
      rw [hcompile] at hfails
      cases hfails
  exact ⟨c, trees, hparse, hnames, herror, (Program.compile_fails_iff hparse hnames).mp herror⟩

end

end Lineage
