/-
  Lineage.Proofs.Script.Strings

  Which texts are string tokens.

  There are two readers of what stands between quotes.  The grammar takes it by a
  repetition that never gives back what it has taken, and `Text.unquote` goes through it
  character by character with a look at the next one.  Both take a backslash together with
  the character behind it and stop at the first quote that is in no such pair, so that
  between the quotes stands what is `Text.Quotable`.  The rule for strings takes a front
  part of a text exactly if that part can be unquoted (`parse_string_iff`), and what stands
  as a string in the tree of a script always can be (`unquotes_of_mem`).
-/
import Lineage.Proofs.Script.Flaws
import Lineage.Proofs.Script.TreeShapes
import Lineage.Script.Reader

namespace Lineage

/-- All trees in a grown tree are grown. -/
theorem Tree.Grown.everywhere {t : Tree Script.Rule} (h : t.Grown Script.grammar) :
    Script.Everywhere (Tree.Grown Script.grammar) t := by
  induction h with
  | node hs h hts ih =>
    exact Script.everywhere_node.mpr ⟨.node hs h hts, Script.everywhereIn_iff.mpr ih⟩

namespace Script

open Grammar

/-! ## Where the rule matches -/

section

variable {text token tail : List Char} {stop : Cursor} {ts : List (Tree Rule)}

/-- What can be unquoted is taken, whatever comes after it. -/
theorem parse_string (htoken : ∃ s, Text.unquote token = .ok s) (tail : List Char) :
    (grammar.parse .string (token ++ tail)).2 =
      some ((Cursor.start (token ++ tail)).skip token.length, [.node .string 1 1 token []]) := by
  obtain ⟨body, hbody, rfl⟩ := Text.unquote_isOk_iff.mp htoken
  have htakes : Takes grammar tightly (Rules.body .string).body
      (.start ('"' :: (body ++ ['"']) ++ tail)) _ [] := quoted_takes hbody rfl
  exact parse_of_gives (rule_takes rfl rfl htakes)

/-- What is taken can be unquoted. -/
theorem unquotes_of_parse (h : (grammar.parse .string text).2 = some (stop, ts)) :
    ∃ token tail, text = token ++ tail ∧ (∃ s, Text.unquote token = .ok s) ∧
      stop = (Cursor.start text).skip token.length ∧ ts = [.node .string 1 1 token []] := by
  obtain ⟨token, tail, htext, rfl, rfl⟩ := (parse_iff_derives.mp h).token rfl rfl
  obtain ⟨t, hnode, -, hgrown⟩ := grown_of_parse h
  obtain rfl := List.singleton_inj.mp hnode
  exact ⟨token, tail, htext, string_unquotes hgrown, rfl, rfl⟩

/-- Up to where the rule takes a text, if it does, is the end of a front part that can be unquoted. -/
theorem parse_string_iff : (grammar.parse .string text).2 = some (stop, ts) ↔
    ∃ token tail, text = token ++ tail ∧ (∃ s, Text.unquote token = .ok s) ∧
      stop = (Cursor.start text).skip token.length ∧ ts = [.node .string 1 1 token []] := by
  constructor
  · exact unquotes_of_parse
  · rintro ⟨token, tail, rfl, htoken, rfl, rfl⟩
    exact parse_string htoken tail

/-- A text is taken whole exactly if it can be unquoted. -/
theorem parse_string_whole_iff :
    (∃ stop ts, (grammar.parse .string text).2 = some (stop, ts) ∧ stop.rest = []) ↔
      ∃ s, Text.unquote text = .ok s := by
  constructor
  · rintro ⟨stop, ts, hparse, hrest⟩
    obtain ⟨token, tail, rfl, htoken, rfl, -⟩ := unquotes_of_parse hparse
    -- Nothing is left behind the token.
    have htail : ((Cursor.start (token ++ tail)).skip token.length).rest = tail :=
      Cursor.rest_skip_append rfl
    obtain rfl : tail = [] := htail.symm.trans hrest
    rwa [List.append_nil]
  · intro htoken
    have hparse := parse_string htoken []
    rw [List.append_nil] at hparse
    refine ⟨_, _, hparse, ?_⟩
    rw [Cursor.rest_skip]
    exact List.drop_length

end

/-! ## The strings of a script -/

/-- What can be unquoted is read as an atom. -/
theorem readAtom_unquoted {text : String} {s : List Char} (h : Text.unquote text.toList = .ok s)
    (scope : Scope) : readAtom .string text scope = .ok (.value (.str (String.ofList s)), scope) := by
  simp only [readAtom, h]
  rfl

/-- A string in the tree of a text that the grammar takes can be unquoted. -/
theorem unquotes_of_mem {r : Rule} {text : List Char} {stop : Cursor} {trees : List (Tree Rule)}
    {t : Tree Rule} (h : (grammar.parse r text).2 = some (stop, trees))
    (ht : t ∈ Tree.nodesIn trees) (hr : t.rule = .string) :
    ∃ s, Text.unquote t.text.toList = .ok s := by
  obtain ⟨root, rfl, -, hgrown⟩ := grown_of_parse h
  have hroot : t ∈ root.nodes := by
    rwa [Tree.nodesIn, Tree.nodesIn, List.append_nil] at ht
  have ht := hgrown.everywhere t hroot
  obtain ⟨_, line, column, token, ts⟩ := t
  obtain rfl := hr
  rw [Tree.text, String.toList_ofList]
  exact string_unquotes ht

/-- **String tokens.**  A text is taken whole by the rule for strings exactly if it can be unquoted,
and of a longer text the rule takes exactly a front part that can be unquoted, if there is one.  So
whatever stands as a string in a script that the grammar accepts can be unquoted, and is read as what
was unquoted. -/
theorem string_tokens_unquote (text : List Char) :
    ((∃ stop ts, (grammar.parse .string text).2 = some (stop, ts) ∧ stop.rest = []) ↔
      ∃ s, Text.unquote text = .ok s) ∧
    (∀ stop ts, (grammar.parse .string text).2 = some (stop, ts) ↔
      ∃ token tail, text = token ++ tail ∧ (∃ s, Text.unquote token = .ok s) ∧
        stop = (Cursor.start text).skip token.length ∧ ts = [.node .string 1 1 token []]) ∧
    ∀ stop trees, (grammar.parse .program text).2 = some (stop, trees) →
      ∀ t ∈ Tree.nodesIn trees, t.rule = .string →
        ∃ s, Text.unquote t.text.toList = .ok s ∧
          ∀ scope, readAtom .string t.text scope = .ok (.value (.str (String.ofList s)), scope) := by
  refine ⟨parse_string_whole_iff, fun stop ts => parse_string_iff, ?_⟩
  intro stop trees hparse t ht hr
  obtain ⟨s, hs⟩ := unquotes_of_mem hparse ht hr
  exact ⟨s, hs, readAtom_unquoted hs⟩

/-- A token in which a backslash stands before a quote inside, and two before the closing one. -/
def escapedToken : List Char := "\"a\\\"b\\\\\"".toList

/-- A script of that token, with another quote in a comment. -/
def escapedScript : List Char := escapedToken ++ "; // \"".toList

theorem string_tokens_unquote_escaped :
    Text.unquote escapedToken = .ok "a\"b\\".toList ∧
    (∃ stop ts, (grammar.parse .string escapedToken).2 = some (stop, ts) ∧ stop.rest = []) ∧
    (grammar.parse .string escapedScript).2 =
      some ((Cursor.start escapedScript).skip 8, [.node .string 1 1 escapedToken []]) ∧
    ∃ stop trees, (grammar.parse .program escapedScript).2 = some (stop, trees) ∧
      ∃ t ∈ Tree.nodesIn trees, t.rule = .string ∧ t.text.toList = escapedToken ∧
        ∀ scope, readAtom .string t.text scope = .ok (.value (.str "a\"b\\"), scope) := by
  have hunquote : Text.unquote escapedToken = .ok "a\"b\\".toList := by decide
  have hscript : ((grammar.parse .program escapedScript).2.any fun r =>
      (Tree.nodesIn r.2).any fun t => t.rule == .string && t.text.toList == escapedToken) = true := by
    decide +kernel
  obtain ⟨⟨stop, trees⟩, hparse, hany⟩ := Option.any_eq_true _ _ |>.mp hscript
  obtain ⟨t, ht, hnode⟩ := List.any_eq_true.mp hany
  simp only [Bool.and_eq_true, beq_iff_eq] at hnode
  obtain ⟨hr, htext⟩ := hnode
  refine ⟨hunquote, ?_, ?_, stop, trees, hparse, t, ht, hr, htext, ?_⟩
  · exact (string_tokens_unquote escapedToken).1.mpr ⟨_, hunquote⟩
  · exact ((string_tokens_unquote escapedScript).2.1 _ _).mpr
      ⟨escapedToken, _, rfl, ⟨_, hunquote⟩, rfl, rfl⟩
  · obtain ⟨s, hs, hread⟩ := (string_tokens_unquote escapedScript).2.2 stop trees hparse t ht hr
    obtain rfl : "a\"b\\".toList = s := by
      rw [htext, hunquote] at hs
      exact Except.ok.inj hs
    exact hread

end Script

end Lineage
