/-
  Lineage.Text.Quoted

  Texts between double quotes, in three forms.

  * `literal`: the form that scripts read.  The quote and the backslash are escaped,
    and line feeds and tabs are written `\n` and `\t`; all else stands for itself.
  * `unquote`: reading that form.  A backslash before any other character stands for
    that character.  Main statements: `unquote_literal`, reading gives the text back, and
    `unquote_isOk_iff`, which texts can be read.
  * `debug`: the form of diagnostics, in which nothing unprintable stands for itself.
-/
import Lineage.Text.Unprintable

namespace Lineage.Text

/-- One character between the quotes of a literal. -/
def literalChar (c : Char) : List Char :=
  if c = '"' then ['\\', '"']
  else if c = '\\' then ['\\', '\\']
  else if c = '\n' then ['\\', 'n']
  else if c = '\t' then ['\\', 't']
  else [c]

/-- The literal form of a text. -/
def literal (s : List Char) : List Char :=
  '"' :: (s.flatMap literalChar ++ ['"'])

/-- The character that an escape stands for. -/
def unescape (c : Char) : Char :=
  if c = 'n' then '\n' else if c = 't' then '\t' else c

/-- What is wrong with a text that is no literal. -/
inductive UnquoteError where
  | missingQuote
  | unexpectedQuote
  | unexpectedEnd
  deriving DecidableEq

/-- The text of the error. -/
def UnquoteError.message : UnquoteError → String
  | .missingQuote => "Expected \" at beginning of string"
  | .unexpectedQuote => "Unexpected \" in string"
  | .unexpectedEnd => "Unexpected end of string"

/-- Read up to a closing quote that ends the text. -/
def unquoteBody : List Char → Except UnquoteError (List Char)
  | [] => .error .unexpectedEnd
  | '\\' :: [] => .error .unexpectedEnd
  | '\\' :: c :: rest => (unquoteBody rest).map (unescape c :: ·)
  | '"' :: [] => .ok []
  | '"' :: _ :: _ => .error .unexpectedQuote
  | c :: rest => (unquoteBody rest).map (c :: ·)

/-- Read a literal that fills the whole text. -/
def unquote : List Char → Except UnquoteError (List Char)
  | '"' :: rest => unquoteBody rest
  | _ => .error .missingQuote

/-- One character between the quotes of a diagnostic. -/
def debugChar (c : Char) : List Char :=
  if c = '"' then ['\\', '"']
  else if c = '\\' then ['\\', '\\']
  else if c = '\n' then ['\\', 'n']
  else if c = '\r' then ['\\', 'r']
  else if c = '\t' then ['\\', 't']
  else if c = '\x00' then ['\\', '0']
  else if isUnprintable c then
    ['\\', 'u', '\x7b'] ++ Nat.toDigits 16 c.toNat ++ ['\x7d']
  else [c]

/-- The diagnostic form of a text. -/
def debug (s : String) : String :=
  String.ofList ('"' :: (s.toList.flatMap debugChar ++ ['"']))

/-! ## Reading what was written -/

/-- A character that stands for itself. -/
theorem unquoteBody_plain {c : Char} (hquote : c ≠ '"') (hslash : c ≠ '\\') (rest : List Char) :
    unquoteBody (c :: rest) = (unquoteBody rest).map (c :: ·) := by
  rw [unquoteBody.eq_def]
  split <;> simp_all

/-- The body of a literal reads back one character at a time. -/
theorem unquoteBody_literalChar (c : Char) (rest : List Char) :
    unquoteBody (literalChar c ++ rest) = (unquoteBody rest).map (c :: ·) := by
  unfold literalChar
  split
  · subst c; rfl
  · split
    · subst c; rfl
    · split
      · subst c; rfl
      · split
        · subst c; rfl
        · rename_i hquote hslash _ _
          exact unquoteBody_plain hquote hslash rest

theorem unquote_literal (s : List Char) : unquote (literal s) = .ok s := by
  show unquoteBody (s.flatMap literalChar ++ ['"']) = .ok s
  induction s with
  | nil => rfl
  | cons c rest ih =>
    rw [List.flatMap_cons, List.append_assoc, unquoteBody_literalChar, ih]
    rfl

/-! ## What can be read -/

/-- What may stand between the quotes: characters other than a quote and a backslash, and pairs of
a backslash and any character. -/
inductive Quotable : List Char → Prop
  | nil : Quotable []
  | pair {c rest} (h : Quotable rest) : Quotable ('\\' :: c :: rest)
  | plain {c rest} (hquote : c ≠ '"') (hslash : c ≠ '\\') (h : Quotable rest) : Quotable (c :: rest)

theorem literalChar_quotable (c : Char) {rest : List Char} (h : Quotable rest) :
    Quotable (literalChar c ++ rest) := by
  unfold literalChar
  split
  · exact .pair h
  · split
    · exact .pair h
    · split
      · exact .pair h
      · split
        · exact .pair h
        · rename_i hquote hslash _ _
          exact .plain hquote hslash h

theorem literal_quotable (s : List Char) : Quotable (s.flatMap literalChar) := by
  induction s with
  | nil => exact .nil
  | cons c rest ih =>
    rw [List.flatMap_cons]
    exact literalChar_quotable c ih

theorem Quotable.unquotes {body : List Char} (h : Quotable body) :
    ∃ s, unquoteBody (body ++ ['"']) = .ok s := by
  induction h with
  | nil => exact ⟨[], rfl⟩
  | @pair c rest _ ih =>
    obtain ⟨s, hs⟩ := ih
    refine ⟨unescape c :: s, ?_⟩
    show (unquoteBody (rest ++ ['"'])).map _ = _
    rw [hs]
    rfl
  | @plain c rest hquote hslash _ ih =>
    obtain ⟨s, hs⟩ := ih
    refine ⟨c :: s, ?_⟩
    rw [List.cons_append, unquoteBody_plain hquote hslash, hs]
    rfl

/-- What is read ends with the first quote that is in no pair. -/
theorem quotable_of_unquoteBody {text s : List Char} (h : unquoteBody text = .ok s) :
    ∃ body, Quotable body ∧ text = body ++ ['"'] := by
  -- One case for each way to go on, in the order in which they are tried.
  fun_induction unquoteBody text generalizing s with
  | case1 | case2 | case5 => cases h
  | case3 c rest ih =>
    cases hrest : unquoteBody rest with
    | error e =>
      rw [hrest] at h
      cases h
    | ok s =>
      obtain ⟨body, hbody, rfl⟩ := ih hrest
      exact ⟨'\\' :: c :: body, .pair hbody, rfl⟩
  | case4 => exact ⟨[], .nil, rfl⟩
  | case6 c rest hlast hpair hclose hearly ih =>
    have hquote : c ≠ '"' := by
      intro hc
      cases rest with
      | nil => exact hclose hc rfl
      | cons => exact hearly _ _ hc rfl
    have hslash : c ≠ '\\' := by
      intro hc
      cases rest with
      | nil => exact hlast hc rfl
      | cons => exact hpair _ _ hc rfl
    cases hrest : unquoteBody rest with
    | error e =>
      rw [hrest] at h
      cases h
    | ok s =>
      obtain ⟨body, hbody, rfl⟩ := ih hrest
      exact ⟨c :: body, .plain hquote hslash hbody, rfl⟩

/-- The texts that can be read are those of two quotes with what may stand between them. -/
theorem unquote_isOk_iff {text : List Char} :
    (∃ s, unquote text = .ok s) ↔ ∃ body, Quotable body ∧ text = '"' :: (body ++ ['"']) := by
  constructor
  · rintro ⟨s, h⟩
    unfold unquote at h
    split at h
    · obtain ⟨body, hbody, rfl⟩ := quotable_of_unquoteBody h
      exact ⟨body, hbody, rfl⟩
    · cases h
  · rintro ⟨body, hbody, rfl⟩
    exact hbody.unquotes

end Lineage.Text
