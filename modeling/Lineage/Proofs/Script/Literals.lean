/-
  Lineage.Proofs.Script.Literals

  Values in literal form are read as expressions.
-/
import Lineage.Proofs.Script.Atoms

namespace Lineage

open Grammar

/-! ## The next character -/

/-- The characters that literals start with, but for the words among them. -/
def Script.signStarts : List Char := '-' :: '\x7b' :: '[' :: atomStarts.take 12

/-- The characters that literals start with. -/
def Script.valueStarts : List Char := signStarts ++ ['E', 't', 'f', 'n']

open Script

/-- A literal is a word, the name of an error code, or starts with no letter. -/
theorem Value.literal_shape {v : Value} (h : v.Writable) :
    (∃ kw ∈ constantWords, v.literal = kw) ∨ (∃ e, v = .err e) ∨
      ∃ ch ∈ signStarts, v.literal.toList.head? = some ch := by
  cases v with
  | null => exact .inl ⟨"null", by decide, rfl⟩
  | bool b =>
    cases b with
    | true => exact .inl ⟨"true", by decide, rfl⟩
    | false => exact .inl ⟨"false", by decide, rfl⟩
  | int n =>
    refine .inr (.inr ?_)
    by_cases hn : 0 ≤ n.toInt
    · rw [literal, Numeral.write_of_nonneg hn]
      obtain ⟨ch, hch, hhead⟩ := digits_start n.toInt.toNat
      have hfirst : ch ∈ (atomStarts.take 12).take 10 := hch
      exact ⟨ch, List.mem_append_right ['-', '\x7b', '['] (List.mem_of_mem_take hfirst), hhead⟩
    · rw [literal, Numeral.write_of_neg (by omega)]
      exact ⟨'-', by decide, rfl⟩
  | float x => exact h.elim
  | str text =>
    exact .inr (.inr ⟨'"', by decide, by rw [literal, quoted, String.toList_ofList]; rfl⟩)
  | obj id =>
    exact .inr (.inr ⟨'#', by decide, by rw [literal, ObjectId.literal, String.toList_append]; rfl⟩)
  | list items =>
    exact .inr (.inr ⟨'\x7b', by decide, by
      rw [literal, String.append_assoc, String.toList_append]; rfl⟩)
  | map entries =>
    exact .inr (.inr ⟨'[', by decide, by
      rw [literal, String.append_assoc, String.toList_append]; rfl⟩)
  | err e => exact .inr (.inl ⟨e, rfl⟩)

theorem Value.literal_starts {v : Value} (h : v.Writable) :
    ∃ ch ∈ valueStarts, v.literal.toList.head? = some ch := by
  rcases literal_shape h with ⟨kw, hkw, htext⟩ | ⟨e, rfl⟩ | ⟨ch, hch, hhead⟩
  · rw [htext]
    obtain rfl | rfl | rfl : kw = "null" ∨ kw = "true" ∨ kw = "false" := by
      simpa [constantWords] using hkw
    · exact ⟨'n', by decide, rfl⟩
    · exact ⟨'t', by decide, rfl⟩
    · exact ⟨'f', by decide, rfl⟩
  · obtain ⟨word, -, -, hname, -⟩ := ErrorCode.Spellable.read h
    exact ⟨'E', by decide, by rw [literal, hname]; rfl⟩
  · exact ⟨ch, List.mem_append_left _ hch, hhead⟩

namespace Script

variable {c : Cursor} {front tail : List Char} {v : Value}

theorem valueStarts_blank : refusesEach grammar false valueStarts 8 Rules.blank = true := by decide

theorem literal_head (hv : v.Writable) (tail : List Char) :
    ∃ ch ∈ valueStarts, (v.literal.toList ++ tail).head? = some ch := by
  obtain ⟨ch, hch, hhead⟩ := v.literal_starts hv
  exact ⟨ch, hch, by rw [List.head?_append, hhead]; rfl⟩

theorem literal_still (hv : v.Writable) (hrest : c.rest = v.literal.toList ++ tail) :
    Still grammar c := by
  obtain ⟨ch, hch, hhead⟩ := literal_head hv tail
  exact still_of_refuses (hrest ▸ hhead) 8 (refuses_of_each valueStarts_blank hch)

/-- One blank is skipped before a character that begins none. -/
theorem skip_blank {rest : List Char} (hrest : c.rest = [' '] ++ rest) {x : Option Char}
    (hx : rest.head? = x) (n : Nat) (h : refuses grammar false x n Rules.blank = true) :
    Skips grammar {} c (c.skip [' '].length) := by
  have hblank : Takes grammar tightly Rules.blank c (c.skip [' '].length) [] :=
    any_takes 0 rfl (fun _ h => by cases h) (text_takes hrest)
  refine skips_of_repeats rfl (repeats_bare (skips_of_not_loose (by decide)) hblank
    (repeats_stop (skips_of_not_loose (by decide)) (blank_fails ?_ n h)))
  rwa [Cursor.rest_skip_append hrest]

theorem skip_blank_literal (hv : v.Writable) (hrest : c.rest = [' '] ++ (v.literal.toList ++ tail)) :
    Skips grammar {} c (c.skip [' '].length) := by
  obtain ⟨ch, hch, hhead⟩ := literal_head hv tail
  exact skip_blank hrest hhead 8 (refuses_of_each valueStarts_blank hch)

/-! ## Lists -/

/-- One more argument behind others. -/
abbrev nextArgument : Pattern Rule := .all [Rules.lit ",", .rule .argument]

/-- An element of a list is an argument, and is read before the others. -/
theorem argument_takes (hv : v.Writable) (hrest : c.rest = v.literal.toList ++ tail)
    (h : Spells v c (c.skip v.literal.toList.length)) :
    ∃ t, Takes grammar {} (.rule .argument) c (c.skip v.literal.toList.length) [t] ∧
      ∀ {ts : List (Tree Rule)} {items : List Value} {scope : Scope}, scope.customErrors = true →
        readArgs ts scope = .ok (Value.spellItems items, scope) →
        readArgs (t :: ts) scope = .ok (Value.spellItems (v :: items), scope) := by
  obtain ⟨t, htakes, hread⟩ := h
  obtain ⟨ch, hch, hhead⟩ := v.literal_starts hv
  have hat : some ch ≠ some '@' := by
    rintro ⟨⟩
    exact absurd hch (by decide)
  refine ⟨_, rule_takes rfl hrest (alt_right (seq_fails (text_fails ?_)) htakes), ?_⟩
  · rw [hrest, List.head?_append, hhead]
    exact hat
  · intro ts items scope hscope hts
    rw [readArgs, reading_bind (hread scope hscope)]
    simp only [hhead, if_neg hat]
    rw [reading_bind hts]
    rfl

/-- The elements of a list behind the first one. -/
def moreItems (items : List Value) : List Char :=
  items.flatMap fun v => [',', ' '] ++ v.literal.toList

theorem moreItems_cons (v : Value) (items : List Value) (tail : List Char) :
    moreItems (v :: items) ++ tail =
      [','] ++ ([' '] ++ (v.literal.toList ++ (moreItems items ++ tail))) := by
  rw [moreItems, List.flatMap_cons, List.append_assoc, List.append_assoc]
  rfl

theorem toList_intercalate (text : String) (rest : List String) :
    (", ".intercalate (text :: rest)).toList =
      text.toList ++ rest.flatMap fun text => [',', ' '] ++ text.toList := by
  induction rest generalizing text with
  | nil => rw [String.intercalate_singleton, List.flatMap_nil, List.append_nil]
  | cons next rest ih =>
    rw [String.intercalate_cons_cons, String.toList_append, String.toList_append, ih,
      List.flatMap_cons, List.append_assoc, List.append_assoc]
    rfl

theorem literal_list (v : Value) (rest : List Value) : (Value.list (v :: rest)).literal.toList =
    ['\x7b'] ++ (v.literal.toList ++ moreItems rest ++ ['\x7d']) := by
  rw [Value.literal, Value.literalItems, String.toList_append, String.toList_append,
    toList_intercalate, Value.literalItems_eq_map, List.flatMap_map, List.append_assoc]
  rfl

theorem stops_items (items : List Value) (tail : List Char) :
    Stops (moreItems items ++ '\x7d' :: tail) := by
  cases items with
  | nil => exact ⟨'\x7d', by decide, rfl⟩
  | cons v items => exact ⟨',', by decide, rfl⟩

/-! ## Scattering assignments -/

/-- A target of a scattering assignment. -/
abbrev target : Pattern Rule := Rules.oneOf [.scatterOptional, .scatterRest, .scatterTarget]

/-- Of values only an error code is taken for a target. -/
theorem target_cases (hv : v.Writable) (hrest : c.rest = v.literal.toList ++ tail)
    (htail : Stops tail) : Fails grammar {} target c ∨
      ∃ ts, Takes grammar {} target c (c.skip v.literal.toList.length) ts := by
  have hc {ch : Char} (hhead : v.literal.toList.head? = some ch) : c.rest.head? = some ch := by
    rw [hrest, List.head?_append, hhead]
    rfl
  obtain ⟨ch, hch, hhead⟩ := v.literal_starts hv
  have hstill := literal_still hv hrest
  have hmarks : ∀ r ∈ [Rule.scatterOptional, .scatterRest],
      refusesEach grammar true valueStarts 12 (.rule r) = true := by decide
  have hoptional : Fails grammar {} (.rule .scatterOptional) c :=
    fails_of_refuses hstill (hc hhead) 12 (refuses_of_each (hmarks _ (by decide)) hch)
  have hmore : Fails grammar {} (.rule .scatterRest) c :=
    fails_of_refuses hstill (hc hhead) 12 (refuses_of_each (hmarks _ (by decide)) hch)
  rcases Value.literal_shape hv with ⟨kw, hkw, htext⟩ | ⟨e, rfl⟩ | ⟨ch, hch, hhead⟩
  · rw [htext] at hrest
    exact .inl (alt_right hoptional (alt_right hmore
      (rule_fails (rule_fails (ident_fails (by decide) (constantWords_keywords hkw) hrest htail.delimited)))))
  · obtain ⟨word, -, hword, hname, -⟩ := ErrorCode.Spellable.read hv
    have htext : (Value.err e).literal.toList = ['E', '_'] ++ word := by rw [Value.literal, hname]
    rw [htext] at hrest ⊢
    have hparts : c.rest = ['E', '_'] ++ (word ++ tail) := by rw [hrest, List.append_assoc]
    exact .inr ⟨_, alt_right hoptional (alt_right hmore
      (rule_takes rfl hrest (rule_takes rfl hrest (codeName_ident_takes hparts hword htail.delimited))))⟩
  · have hrefuse : refusesEach grammar true signStarts 12 target = true := by decide
    exact .inl (fails_of_refuses hstill (hc hhead) 12 (refuses_of_each hrefuse hch))

/-- The targets among the elements of a list end before an element that is none, or at the end. -/
theorem targets_repeat (items : List Value) (hitems : Value.AllWritable items)
    (hrest : c.rest = moreItems items ++ '\x7d' :: tail) :
    ∃ c' ts, Repeats grammar {} (.all [Rules.lit ",", target]) c c' ts ∧
      (c'.rest.head? = some ',' ∨ c'.rest = '\x7d' :: tail) := by
  have hstill : Still grammar c := Stops.still (hrest ▸ stops_items items tail)
  induction items generalizing c with
  | nil =>
    exact ⟨c, [], repeats_stop hstill.skips (fails_at hrest 12 (by decide)), .inr hrest⟩
  | cons v items ih =>
    obtain ⟨hv, hitems⟩ := hitems
    have hcomma := hrest.trans (moreItems_cons v items ('\x7d' :: tail))
    have hblank := Cursor.rest_skip_append hcomma
    have hvalue := Cursor.rest_skip_append hblank
    have hskip := skip_blank_literal hv hblank
    rcases target_cases hv hvalue (stops_items items tail) with hfails | ⟨ts, htakes⟩
    · refine ⟨c, [], repeats_stop hstill.skips (seq_fails_after (text_takes hcomma) hskip hfails),
        .inl ?_⟩
      rw [hcomma]
      rfl
    · have hnext := Cursor.rest_skip_append hvalue
      obtain ⟨c', us, hrepeats, hend⟩ :=
        ih hitems hnext (Stops.still (hnext ▸ stops_items items tail))
      exact ⟨c', _, repeats_more hstill.skips (seq_takes (text_takes hcomma) hskip htakes) hrepeats,
        hend⟩

/-- A list is no scattering assignment, as no equals sign follows. -/
theorem scatter_fails (items : List Value) (hitems : Value.AllWritable items)
    (hrest : c.rest = (Value.list items).literal.toList ++ tail) (htail : Stops tail) :
    Fails grammar {} (.rule .scatterAssign) c := by
  cases items with
  | nil =>
    have hbrace : c.rest = ['\x7b'] ++ ('\x7d' :: tail) := hrest
    have hinner := Cursor.rest_skip_append hbrace
    have hstill : Still grammar (c.skip ['\x7b'].length) :=
      Stops.still ⟨'\x7d', by decide, by rw [hinner]; rfl⟩
    exact rule_fails (seq_fails_after (text_takes hbrace) hstill.skips
      (fails_at hinner 16 (by decide)))
  | cons v items =>
    obtain ⟨hv, hitems⟩ := hitems
    have hbrace : c.rest =
        ['\x7b'] ++ (v.literal.toList ++ (moreItems items ++ '\x7d' :: tail)) := by
      rw [hrest, literal_list]
      simp only [List.append_assoc, List.cons_append, List.nil_append]
    have hinner := Cursor.rest_skip_append hbrace
    refine rule_fails (seq_fails_after (text_takes hbrace) (literal_still hv hinner).skips ?_)
    rcases target_cases hv hinner (stops_items items tail) with hfails | ⟨ts, htakes⟩
    · exact seq_fails (seq_fails hfails)
    · have hafter := Cursor.rest_skip_append hinner
      have hend : Still grammar ((c.skip ['\x7b'].length).skip v.literal.toList.length) :=
        Stops.still (hafter ▸ stops_items items tail)
      obtain ⟨c', us, hrepeats, hstop⟩ := targets_repeat items hitems hafter
      have htargets := seq_takes htakes hend.skips (star_of_repeats hend.skips hrepeats)
      rcases hstop with hcomma | hclose
      · refine seq_fails_after htargets (Stops.still ⟨',', by decide, hcomma⟩).skips
          (seq_fails (text_fails ?_))
        rw [hcomma]
        decide
      · have hclose : c'.rest = ['\x7d'] ++ tail := hclose
        have hstill' : Still grammar c' := Stops.still ⟨'\x7d', by decide, by rw [hclose]; rfl⟩
        have htail' : Stops (c'.skip ['\x7d'].length).rest := by
          rwa [Cursor.rest_skip_append hclose]
        exact seq_fails_after htargets hstill'.skips (seq_fails_after (text_takes hclose)
          htail'.still.skips (seq_fails (htail'.fails 4 (by decide))))

/-! ## Maps -/

/-- An entry of a map. -/
abbrev entry : Pattern Rule := .all [Rules.expr, Rules.lit "->", Rules.expr]

/-- The text of an entry. -/
def entryText (k : String) (v : Value) : List Char :=
  (Text.literal k.toList ++ [' ']) ++ (['-', '>'] ++ ([' '] ++ v.literal.toList))

/-- The entries of a map behind the first one. -/
def moreEntries (entries : List (String × Value)) : List Char :=
  entries.flatMap fun e => [',', ' '] ++ entryText e.1 e.2

theorem moreEntries_cons (k : String) (v : Value) (entries : List (String × Value))
    (tail : List Char) : moreEntries ((k, v) :: entries) ++ tail =
      [','] ++ ([' '] ++ (entryText k v ++ (moreEntries entries ++ tail))) := by
  rw [moreEntries, List.flatMap_cons, List.append_assoc, List.append_assoc]
  rfl

theorem toList_entry (k : String) (v : Value) :
    (Value.quoted k ++ " -> " ++ v.literal).toList = entryText k v := by
  rw [String.toList_append, String.toList_append, Value.quoted, String.toList_ofList, entryText,
    List.append_assoc, List.append_assoc]
  rfl

theorem literalEntries_flatMap (entries : List (String × Value)) :
    (Value.literalEntries entries).flatMap (fun text => [',', ' '] ++ text.toList) =
      moreEntries entries := by
  induction entries with
  | nil => rfl
  | cons e rest ih =>
    rw [Value.literalEntries, List.flatMap_cons, ih, toList_entry]
    rfl

theorem literal_map (k : String) (v : Value) (rest : List (String × Value)) :
    (Value.map ((k, v) :: rest)).literal.toList =
      ['['] ++ (entryText k v ++ moreEntries rest ++ [']']) := by
  rw [Value.literal, Value.literalEntries, String.toList_append, String.toList_append,
    toList_intercalate, literalEntries_flatMap, toList_entry, List.append_assoc]
  rfl

theorem stops_entries (entries : List (String × Value)) (tail : List Char) :
    Stops (moreEntries entries ++ ']' :: tail) := by
  cases entries with
  | nil => exact ⟨']', by decide, rfl⟩
  | cons e entries => exact ⟨',', by decide, rfl⟩

/-- An arrow is no operator. -/
theorem arrow_fails (hrest : c.rest = ['-', '>'] ++ tail) :
    Fails grammar {} (Rules.oneOf Rules.infixOps) c := by
  have hrefuse : ∀ r ∈ Rules.infixOps, r ≠ .sub → (refuses grammar false (some '-') 8 Rules.blank &&
      refuses grammar true (some '-') 12 (.rule r)) = true := by decide
  refine any_fails fun p hp => ?_
  obtain ⟨r, hr, rfl⟩ := List.mem_map.mp hp
  by_cases hsub : r = .sub
  · have hminus : c.rest = ['-'] ++ (['>'] ++ tail) := hrest
    have hnext := Cursor.rest_skip_append hminus
    exact hsub ▸ rule_fails (seq_fails_after (text_takes hminus) (skips_of_not_loose (by decide))
      (notAhead_fails (text_takes hnext)))
  · exact fails_at (show c.rest = '-' :: ('>' :: tail) from hrest) 12 (hrefuse r hr hsub)

/-- A key is read up to the arrow behind it. -/
theorem key_takes (k : String)
    (hrest : c.rest = (Text.literal k.toList ++ [' ']) ++ (['-', '>'] ++ tail)) :
    ∃ t, Takes grammar {} Rules.expr c (c.skip (Text.literal k.toList ++ [' ']).length) [t] ∧
      ∀ scope, readExpr t scope = .ok (.value (.str k), scope) := by
  have hquoted : c.rest = Text.literal k.toList ++ ([' '] ++ (['-', '>'] ++ tail)) := by
    rw [hrest, List.append_assoc]
  have hoperand := quoted_operand k.toList hquoted
  obtain ⟨ch, hch, hc⟩ := hoperand.starts
  have hblank := Cursor.rest_skip_append hquoted
  have hskip := skip_blank hblank (show _ = some '-' from rfl) 8 (by decide)
  have harrow := Cursor.rest_skip_append hblank
  rw [← Cursor.skip_append] at hskip harrow
  have hminus : (c.skip (Text.literal k.toList ++ [' ']).length).rest.head? = some '-' := by
    rw [harrow]
    rfl
  have hrun := run_takes (no_signs hch hc) (atomStarts_still hch hc) hoperand.takes hskip
    (still_of_refuses hminus 8 (by decide)) (fails_at harrow 12 (by decide))
    (seq_fails (arrow_fails harrow))
  exact ⟨_, rule_takes rfl hrest hrun, fun scope => readAtom_string k scope⟩

/-- An entry is read as its key and its value, before the others. -/
theorem entry_takes (k : String) (hv : v.Writable) (hrest : c.rest = entryText k v ++ tail)
    (hvalue : ∀ {c : Cursor}, c.rest = v.literal.toList ++ tail →
      Spells v c (c.skip v.literal.toList.length)) :
    ∃ key value, Takes grammar {} entry c (c.skip (entryText k v).length) [key, value] ∧
      ∀ {ts : List (Tree Rule)} {entries : List (String × Value)} {scope : Scope},
        scope.customErrors = true → readEntries ts scope = .ok (Value.spellEntries entries, scope) →
        readEntries (key :: value :: ts) scope =
          .ok (Value.spellEntries ((k, v) :: entries), scope) := by
  have hkey : c.rest = (Text.literal k.toList ++ [' ']) ++
      (['-', '>'] ++ ([' '] ++ (v.literal.toList ++ tail))) := by
    rw [hrest, entryText]
    simp only [List.append_assoc]
  obtain ⟨key, hkeyTakes, hkeyRead⟩ := key_takes k hkey
  have harrow := Cursor.rest_skip_append hkey
  have hblank := Cursor.rest_skip_append harrow
  obtain ⟨value, hvalueTakes, hvalueRead⟩ := hvalue (Cursor.rest_skip_append hblank)
  have hskip := skip_blank_literal hv hblank
  have hstill : Still grammar (c.skip (Text.literal k.toList ++ [' ']).length) :=
    still_of_refuses (show _ = some '-' by rw [harrow]; rfl) 8 (by decide)
  refine ⟨key, value, ?_, ?_⟩
  · rw [entryText, Cursor.skip_append, Cursor.skip_append, Cursor.skip_append]
    exact seq_takes hkeyTakes hstill.skips (seq_takes (text_takes harrow) hskip hvalueTakes)
  · intro ts entries scope hscope hts
    rw [readEntries, reading_bind (hkeyRead scope), reading_bind (hvalueRead scope hscope),
      reading_bind hts]
    rfl

/-- One more entry behind others. -/
abbrev nextEntry : Pattern Rule := .all [Rules.lit ",", entry]

/-! ## Brackets -/

theorem close_still {close : Char} (hclose : close ∈ stops) (hrest : c.rest = [close] ++ tail) :
    Still grammar c :=
  Stops.still ⟨close, hclose, by rw [hrest]; rfl⟩

/-- What is between brackets, with the brackets. -/
theorem bracketed_takes {opening closing : Char} {p : Pattern Rule} {ts : List (Tree Rule)}
    (hclosing : closing ∈ stops) (hrest : c.rest = ([opening] ++ (front ++ [closing])) ++ tail)
    (hstill : Still grammar (c.skip [opening].length))
    (h : Takes grammar {} p (c.skip [opening].length)
      ((c.skip [opening].length).skip front.length) ts) :
    Takes grammar {} (.all [.text [opening], p, .text [closing]]) c
      (c.skip ([opening] ++ (front ++ [closing])).length) ts := by
  have hopen : c.rest = [opening] ++ (front ++ ([closing] ++ tail)) := by
    rw [hrest]
    simp only [List.append_assoc]
  have hclose := Cursor.rest_skip_append (Cursor.rest_skip_append hopen)
  have hbody := seq_takes (text_takes hopen) hstill.skips
    (seq_takes h (close_still hclosing hclose).skips (text_takes hclose))
  rw [Cursor.skip_append, Cursor.skip_append]
  rwa [List.append_nil] at hbody

/-- A list is read as soon as what is between the brackets is. -/
theorem spells_list {items : List Value} (hitems : Value.AllWritable items) {ts : List (Tree Rule)}
    (htext : (Value.list items).literal.toList = ['\x7b'] ++ (front ++ ['\x7d']))
    (hrest : c.rest = (Value.list items).literal.toList ++ tail) (htail : Stops tail)
    (hstill : Still grammar (c.skip ['\x7b'].length))
    (hinner : Takes grammar {} (.opt (.rule .exprlist)) (c.skip ['\x7b'].length)
      ((c.skip ['\x7b'].length).skip front.length) ts)
    (hread : ∀ scope : Scope, scope.customErrors = true →
      readArglist ts scope = .ok (Value.spellItems items, scope)) :
    Spells (.list items) c (c.skip (Value.list items).literal.toList.length) := by
  have hscatter := scatter_fails items hitems hrest htail
  rw [htext] at hrest ⊢
  have hlist : Takes grammar {} (.rule .list) c (c.skip (['\x7b'] ++ (front ++ ['\x7d'])).length)
      [.node .list c.line c.column (['\x7b'] ++ (front ++ ['\x7d'])) ts] :=
    rule_takes rfl hrest (bracketed_takes (by decide) hrest hstill hinner)
  have hc : c.rest = '\x7b' :: (front ++ ['\x7d'] ++ tail) := hrest
  have hopenStill : Still grammar c :=
    still_of_refuses (show _ = some '\x7b' by rw [hc]; rfl) 8 (by decide)
  have hsigns : Takes grammar {} (.star (Rules.oneOf Rules.prefixOps)) c c [] := by
    have hothers : ∀ r ∈ Rules.prefixOps, r ≠ .scatterAssign →
        (refuses grammar false (some '\x7b') 8 Rules.blank &&
          refuses grammar true (some '\x7b') 4 (.rule r)) = true := by decide
    refine star_none (any_fails fun p hp => ?_)
    obtain ⟨r, hr, rfl⟩ := List.mem_map.mp hp
    by_cases hr' : r = .scatterAssign
    · exact hr' ▸ hscatter
    · exact fails_at hc 4 (hothers r hr hr')
  refine ⟨_, expr_takes hrest htail hsigns hopenStill
    (any_takes 1 rfl (all_fail_at hc 4 (by decide)) hlist), fun scope hscope => ?_⟩
  show (readArglist ts >>= fun args => pure (Expr.list args)) scope = _
  rw [reading_bind (hread scope hscope), Value.spelling]
  rfl

/-- A map is read as soon as what is between the brackets is. -/
theorem spells_map {entries : List (String × Value)} {ts : List (Tree Rule)}
    (htext : (Value.map entries).literal.toList = ['['] ++ (front ++ [']']))
    (hrest : c.rest = (Value.map entries).literal.toList ++ tail) (htail : Stops tail)
    (hstill : Still grammar (c.skip ['['].length))
    (hinner : Takes grammar {} (.opt (Rules.commaSeparated entry)) (c.skip ['['].length)
      ((c.skip ['['].length).skip front.length) ts)
    (hread : ∀ scope : Scope, scope.customErrors = true →
      readEntries ts scope = .ok (Value.spellEntries entries, scope)) :
    Spells (.map entries) c (c.skip (Value.map entries).literal.toList.length) := by
  rw [htext] at hrest ⊢
  have hmap : Takes grammar {} (.rule .map) c (c.skip (['['] ++ (front ++ [']'])).length)
      [.node .map c.line c.column (['['] ++ (front ++ [']'])) ts] :=
    rule_takes rfl hrest (bracketed_takes (by decide) hrest hstill hinner)
  have hc : c.rest = '[' :: (front ++ [']'] ++ tail) := hrest
  have hopenStill : Still grammar c :=
    still_of_refuses (show _ = some '[' by rw [hc]; rfl) 8 (by decide)
  refine ⟨_, expr_takes hrest htail (star_none (fails_at hc 8 (by decide))) hopenStill
    (any_takes 2 rfl (all_fail_at hc 4 (by decide)) hmap), fun scope hscope => ?_⟩
  show (readEntries ts >>= fun entries => pure (Expr.map entries)) scope = _
  rw [reading_bind (hread scope hscope), Value.spelling]
  rfl

/-! ## Values -/

mutual

/-- The literal form of a value is read as its spelling, by induction on the value. -/
theorem spells_value : ∀ (v : Value), v.Writable → ∀ {c : Cursor} {tail : List Char},
    c.rest = v.literal.toList ++ tail → Stops tail → Spells v c (c.skip v.literal.toList.length)
  | .null, _, _, _, hrest, htail => spells_null hrest htail
  | .bool b, _, _, _, hrest, htail => spells_bool b hrest htail
  | .int _, hv, _, _, hrest, htail => spells_int hv hrest htail
  | .float _, hv, _, _, _, _ => hv.elim
  | .str text, _, _, _, hrest, htail => spells_str text hrest htail
  | .obj id, _, _, _, hrest, htail => spells_obj id hrest htail
  | .err e, hv, _, _, hrest, htail => spells_err e hv hrest htail
  | .list [], hv, c, tail, hrest, htail => by
    have hopen : c.rest = ['\x7b'] ++ (['\x7d'] ++ tail) := hrest
    have hclose := Cursor.rest_skip_append hopen
    have hnone : Fails grammar {} (.rule .exprlist) (c.skip ['\x7b'].length) :=
      fails_at (show _ = '\x7d' :: tail from hclose) 40 (by decide)
    exact spells_list hv (show _ = ['\x7b'] ++ ([] ++ ['\x7d']) from rfl) hrest htail
      (close_still (by decide) hclose) (opt_none hnone) fun _ _ => rfl
  | .list (v :: rest), hv, c, tail, hrest, htail => by
    have hopen : c.rest = ['\x7b'] ++ (v.literal.toList ++ (moreItems rest ++ '\x7d' :: tail)) := by
      rw [hrest, literal_list]
      simp only [List.append_assoc, List.cons_append, List.nil_append]
    have hfirst := Cursor.rest_skip_append hopen
    have hmore := Cursor.rest_skip_append hfirst
    have hend : Still grammar ((c.skip ['\x7b'].length).skip v.literal.toList.length) :=
      Stops.still (hmore ▸ stops_items rest tail)
    obtain ⟨t, htakes, hread⟩ := argument_takes hv.1 hfirst
      (spells_value v hv.1 hfirst (stops_items rest tail))
    obtain ⟨ts, hrepeats, hreads⟩ := spells_items rest hv.2 hmore
    have hall := seq_takes htakes hend.skips (star_of_repeats hend.skips hrepeats)
    rw [← Cursor.skip_append] at hall
    exact spells_list hv (literal_list v rest) hrest htail
      (literal_still hv.1 hfirst)
      (opt_takes (rule_takes rfl (by rw [hfirst, ← List.append_assoc]) hall))
      fun scope hscope => hread hscope (hreads scope hscope)
  | .map [], _, c, tail, hrest, htail => by
    have hopen : c.rest = ['['] ++ ([']'] ++ tail) := hrest
    have hclose := Cursor.rest_skip_append hopen
    have hnone : Fails grammar {} (Rules.commaSeparated entry) (c.skip ['['].length) :=
      fails_at (show _ = ']' :: tail from hclose) 40 (by decide)
    exact spells_map (show _ = ['['] ++ ([] ++ [']']) from rfl) hrest htail
      (close_still (by decide) hclose) (opt_none hnone) fun _ _ => rfl
  | .map ((k, v) :: rest), hv, c, tail, hrest, htail => by
    have hopen : c.rest = ['['] ++ (entryText k v ++ (moreEntries rest ++ ']' :: tail)) := by
      rw [hrest, literal_map]
      simp only [List.append_assoc, List.cons_append, List.nil_append]
    have hfirst := Cursor.rest_skip_append hopen
    have hmore := Cursor.rest_skip_append hfirst
    have hend : Still grammar ((c.skip ['['].length).skip (entryText k v).length) :=
      Stops.still (hmore ▸ stops_entries rest tail)
    have hstill : Still grammar (c.skip ['['].length) :=
      atomStarts_still (show '"' ∈ atomStarts by decide) (by rw [hfirst]; rfl)
    obtain ⟨key, value, htakes, hread⟩ := entry_takes k hv.2.1 hfirst
      fun hrest => spells_value v hv.2.1 hrest (stops_entries rest tail)
    obtain ⟨ts, hrepeats, hreads⟩ := spells_entries rest hv.2.2 hmore
    have hall := seq_takes htakes hend.skips (star_of_repeats hend.skips hrepeats)
    rw [← Cursor.skip_append] at hall
    exact spells_map (literal_map k v rest) hrest htail hstill (opt_takes hall)
      fun scope hscope => hread hscope (hreads scope hscope)

theorem spells_items : ∀ (items : List Value), Value.AllWritable items →
    ∀ {c : Cursor} {tail : List Char}, c.rest = moreItems items ++ '\x7d' :: tail →
      ∃ ts, Repeats grammar {} nextArgument c (c.skip (moreItems items).length) ts ∧
        ∀ scope : Scope, scope.customErrors = true →
          readArgs ts scope = .ok (Value.spellItems items, scope)
  | [], _, c, tail, hrest => by
    have hclose : c.rest = ['\x7d'] ++ tail := hrest
    exact ⟨[], repeats_stop (close_still (by decide) hclose).skips
      (fails_at hclose 4 (by decide)), fun _ _ => rfl⟩
  | v :: rest, hitems, c, tail, hrest => by
    have hcomma := hrest.trans (moreItems_cons v rest ('\x7d' :: tail))
    have hblank := Cursor.rest_skip_append hcomma
    have hvalue := Cursor.rest_skip_append hblank
    have hmore := Cursor.rest_skip_append hvalue
    have hskip := skip_blank_literal hitems.1 hblank
    have hstill : Still grammar c := Stops.still (hrest ▸ stops_items (v :: rest) tail)
    obtain ⟨t, htakes, hread⟩ := argument_takes hitems.1 hvalue
      (spells_value v hitems.1 hvalue (stops_items rest tail))
    obtain ⟨ts, hrepeats, hreads⟩ := spells_items rest hitems.2 hmore
    refine ⟨_, ?_, fun scope hscope => hread hscope (hreads scope hscope)⟩
    have hall := repeats_more hstill.skips (seq_takes (text_takes hcomma) hskip htakes) hrepeats
    rwa [← Cursor.skip_append, ← Cursor.skip_append, ← Cursor.skip_append] at hall

theorem spells_entries : ∀ (entries : List (String × Value)), Value.EntriesWritable entries →
    ∀ {c : Cursor} {tail : List Char}, c.rest = moreEntries entries ++ ']' :: tail →
      ∃ ts, Repeats grammar {} nextEntry c (c.skip (moreEntries entries).length) ts ∧
        ∀ scope : Scope, scope.customErrors = true →
          readEntries ts scope = .ok (Value.spellEntries entries, scope)
  | [], _, c, tail, hrest => by
    have hclose : c.rest = [']'] ++ tail := hrest
    exact ⟨[], repeats_stop (close_still (by decide) hclose).skips
      (fails_at hclose 4 (by decide)), fun _ _ => rfl⟩
  | (k, v) :: rest, hentries, c, tail, hrest => by
    have hcomma := hrest.trans (moreEntries_cons k v rest (']' :: tail))
    have hblank := Cursor.rest_skip_append hcomma
    have hentry := Cursor.rest_skip_append hblank
    have hmore := Cursor.rest_skip_append hentry
    have hskip := skip_blank hblank (show _ = some '"' from rfl) 8 (by decide)
    have hstill : Still grammar c := Stops.still (hrest ▸ stops_entries ((k, v) :: rest) tail)
    obtain ⟨key, value, htakes, hread⟩ := entry_takes k hentries.1 hentry
      fun hrest => spells_value v hentries.1 hrest (stops_entries rest tail)
    obtain ⟨ts, hrepeats, hreads⟩ := spells_entries rest hentries.2 hmore
    refine ⟨_, ?_, fun scope hscope => hread hscope (hreads scope hscope)⟩
    have hall := repeats_more hstill.skips (seq_takes (text_takes hcomma) hskip htakes) hrepeats
    rwa [← Cursor.skip_append, ← Cursor.skip_append, ← Cursor.skip_append] at hall

end

/-! ## The script that returns a value -/

/-- The script that returns a value. -/
def returnScript (v : Value) : String := "return " ++ v.literal ++ ";"

/-- What the script is read as. -/
def returnTree (v : Value) : SyntaxTree := ⟨[.mk 1 1 (.return (some v.spelling))], .initial⟩

theorem end_still (hrest : c.rest = []) : Still grammar c :=
  still_of_refuses (show _ = none by rw [hrest]; rfl) 8 (by decide)

/-- The statement is taken up to its semicolon. -/
theorem return_takes (hv : v.Writable) (hrest : c.rest = (returnScript v).toList) :
    ∃ t, Takes grammar {} (.rule .statement) c (c.skip (returnScript v).toList.length)
        [.node .statement c.line c.column (returnScript v).toList
          [.node .returnStatement c.line c.column (returnScript v).toList [t]]] ∧
      ∀ scope : Scope, scope.customErrors = true → readExpr t scope = .ok (v.spelling, scope) := by
  have htext : (returnScript v).toList =
      "return".toList ++ ([' '] ++ (v.literal.toList ++ [';'])) := by
    rw [returnScript, String.toList_append, String.toList_append, List.append_assoc]
    rfl
  have hall : c.rest = (returnScript v).toList ++ [] := by rw [hrest, List.append_nil]
  rw [htext] at hrest hall ⊢
  have hblank := Cursor.rest_skip_append hrest
  have hvalue := Cursor.rest_skip_append hblank
  have hclose := Cursor.rest_skip_append hvalue
  have hend : Stops [';'] := ⟨';', by decide, rfl⟩
  obtain ⟨t, htakes, hread⟩ := spells_value v hv hvalue hend
  have hskip := skip_blank_literal hv hblank
  have hstill : Still grammar c :=
    still_of_refuses (show _ = some 'r' by rw [hrest]; rfl) 8 (by decide)
  have hkeyword : Takes grammar {} (.ahead (.rule .kwReturn)) c c [] :=
    ahead_takes (rule_takes_unplanted rfl (word_ends (by decide) hrest (word_here hrest)
      (by rintro ch ⟨⟩; rfl)))
  have hafter : Still grammar
      (((c.skip "return".toList.length).skip [' '].length).skip v.literal.toList.length) :=
    Stops.still (hclose ▸ hend)
  have hbody := seq_takes hkeyword hstill.skips (seq_takes (word_here hrest) hskip
    (seq_takes (opt_takes htakes) hafter.skips (text_takes (show _ = [';'] ++ [] from hclose))))
  rw [← Cursor.skip_append, ← Cursor.skip_append, ← Cursor.skip_append] at hbody
  refine ⟨t, rule_takes rfl hall (any_takes 7 rfl ?_ (rule_takes rfl hall hbody)), hread⟩
  exact all_fail_at (show c.rest = 'r' :: _ from hrest) 40 (by decide)

theorem program_takes (hv : v.Writable) (hrest : c.rest = (returnScript v).toList) :
    ∃ t e, Takes grammar {} (.rule .program) c (c.skip (returnScript v).toList.length)
        [.node .program c.line c.column (returnScript v).toList
          [.node .statements c.line c.column (returnScript v).toList
            [.node .statement c.line c.column (returnScript v).toList
              [.node .returnStatement c.line c.column (returnScript v).toList [t]]], e]] ∧
      ∀ scope : Scope, scope.customErrors = true → readExpr t scope = .ok (v.spelling, scope) := by
  obtain ⟨t, hstatement, hread⟩ := return_takes hv hrest
  have hall : c.rest = (returnScript v).toList ++ [] := by rw [hrest, List.append_nil]
  have hstart : c.rest.head? = some 'r' := by
    rw [hrest, returnScript, String.toList_append, String.toList_append]
    rfl
  have hstill : Still grammar c := still_of_refuses hstart 8 (by decide)
  have hend := Cursor.rest_skip_append hall
  have hstill' := end_still hend
  have hnone : Fails grammar {} (.rule .statement) (c.skip (returnScript v).toList.length) :=
    fails_of_refuses hstill' (show _ = none by rw [hend]; rfl) 60 (by decide)
  have hstatements :
      Takes grammar {} (.rule .statements) c (c.skip (returnScript v).toList.length) _ :=
    rule_takes rfl hall (star_takes hstatement (repeats_stop hstill'.skips hnone))
  have hfinish : Takes grammar {} (.rule .endOfInput) (c.skip (returnScript v).toList.length)
      (c.skip (returnScript v).toList.length) _ :=
    rule_takes rfl (show _ = [] ++ [] from hend) (finish_takes hend)
  have hfront : c.rest = [] ++ c.rest := rfl
  exact ⟨t, _, rule_takes rfl hall (seq_takes (text_takes hfront) hstill.skips
    (seq_takes hstatements hstill'.skips hfinish)), hread⟩

theorem readStatements_return {t : Tree Rule} {e : Expr} {scope : Scope} (line column : Nat)
    (text : List Char) (h : readExpr t scope = .ok (e, scope)) :
    readStatements
        [.node .statement line column text [.node .returnStatement line column text [t]]] scope =
      .ok ([.mk line column (.return (some e))], scope) := by
  have hnode : readNode .returnStatement [t] scope = .ok (some (.return (some e)), scope) := by
    rw [readNode, reading_bind h]
    rfl
  have hstatement : readStatement (.node .returnStatement line column text [t]) scope =
      .ok (some (.mk line column (.return (some e))), scope) := by
    rw [readStatement, reading_bind hnode]
    rfl
  rw [readStatements, reading_bind hstatement]
  rfl

/-- A script is read as its statements are. -/
theorem read_of_parse {source : String} {customErrors : Bool} {c : Cursor} {r r' : Rule}
    {line line' column column' : Nat} {text text' : List Char} {parts more : List (Tree Rule)}
    {statements : List Stmt} {scope : Scope}
    (h : (grammar.parse .program source.toList).2 =
      some (c, [.node r line column text (.node r' line' column' text' parts :: more)]))
    (hread : readStatements parts ⟨.initial, [], customErrors⟩ = .ok (statements, scope)) :
    SyntaxTree.read source customErrors = .ok ⟨statements, scope.names⟩ := by
  unfold SyntaxTree.read
  extract_lets text
  generalize hparse : grammar.parse .program text = parsed
  rw [show grammar.parse .program source.toList = parsed from hparse] at h
  obtain ⟨failures, result⟩ := parsed
  obtain rfl : result = _ := h
  simp only [StateT.run, hread]
  rfl

/-- The script that returns a value is read as the statement that returns its spelling. -/
theorem read_return (hv : v.Writable) :
    SyntaxTree.read (returnScript v) true = .ok (returnTree v) := by
  have hstart : (Cursor.start (returnScript v).toList).rest = (returnScript v).toList := rfl
  obtain ⟨t, e, htakes, hread⟩ := program_takes hv hstart
  exact read_of_parse (parse_of_gives htakes) (readStatements_return 1 1 _ (hread _ rfl))

end Script

end Lineage
