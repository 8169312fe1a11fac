import Mathlib

/-!
# Lexical states of SQL

Where PostgreSQL's lexer is after reading a text, one character at a time, with standard conforming strings: between
tokens, in a name, or in something whose contents are not tokens. A run of text in quotes, between dollar tags or in
comments, which nest, is told apart from the code around it; an escape string goes on in a literal on a later line.
-/

namespace Sql

/-- What the last character of a block comment may begin. -/
inductive CommentMark
  | plain | star | slash
  deriving DecidableEq, Repr

/-- Where the lexer is. -/
inductive LexState
  | code
  /-- In a name; a single `e` before a quote makes an escape string. -/
  | word (escapes : Bool)
  /-- Behind a `$` that begins a token. -/
  | dollar
  | tag (chars : List Char)
  /-- In a dollar-quoted body, with what followed its last `$`. -/
  | dollarBody (chars : List Char) (seen : Option (List Char))
  | param
  | literal (escapes : Bool)
  /-- Behind a backslash of an escape string. -/
  | escaped
  /-- Behind a quote in a literal. -/
  | literalQuote (escapes : Bool)
  /-- Behind an escape string, on a later line or not. -/
  | gap (later : Bool)
  | quotedName
  | dash (escapes : Bool)
  | lineComment (escapes : Bool)
  | slash
  | blockComment (depth : ℕ) (mark : CommentMark)
  deriving DecidableEq, Repr

/-- `ident_start`. -/
def isNameStart (c : Char) : Bool := c.isAlpha || c = '_' || decide (128 ≤ c.toNat)

/-- `ident_cont`. -/
def isNameChar (c : Char) : Bool := isNameStart c || c.isDigit || c = '$'

def isNewline (c : Char) : Bool := c = '\n' || c = '\r'

def isSpace (c : Char) : Bool := isNewline c || c = ' ' || c = '\t' || c.toNat = 11 || c.toNat = 12

namespace LexState

/-- A character between tokens. -/
def ofCode (c : Char) : LexState :=
  if c = '\'' then literal false
  else if c = '"' then quotedName
  else if c = '$' then dollar
  else if c = '-' then dash false
  else if c = '/' then slash
  else if isNameStart c then word (c = 'e' || c = 'E')
  else code

/-- A character behind an escape string, which a quote on a later line goes on with. -/
def ofGap (later : Bool) (c : Char) : LexState :=
  if isNewline c then gap true
  else if isSpace c then gap later
  else if c = '-' then dash true
  else if c = '\'' && later then literal true
  else ofCode c

/-- A character behind a name. -/
def ofWord (escapes : Bool) (c : Char) : LexState :=
  if c = '\'' then literal escapes else if isNameChar c then word false else ofCode c

/-- The next character. -/
def next : LexState → Char → LexState
  | code, c => ofCode c
  | word escapes, c => ofWord escapes c
  | dollar, c =>
    if c.isDigit then param
    else if c = '$' then dollarBody [] none
    else if isNameStart c then tag [c]
    else ofCode c
  | tag chars, c =>
    if c = '$' then dollarBody chars none
    else if isNameChar c then tag (chars ++ [c])
    -- no tag after all: what follows the `$` is a name
    else ofWord (chars = ['e'] || chars = ['E']) c
  | dollarBody chars seen, c =>
    if c = '$' then if seen = some chars then code else dollarBody chars (some [])
    else dollarBody chars (seen.map (· ++ [c]))
  | param, c => if c.isDigit then param else ofCode c
  | literal escapes, c =>
    if c = '\'' then literalQuote escapes else if escapes && c = '\\' then escaped else literal escapes
  | escaped, _ => literal true
  | literalQuote escapes, c => if c = '\'' then literal escapes else if escapes then ofGap false c else ofCode c
  | gap later, c => ofGap later c
  | quotedName, c => if c = '"' then code else quotedName
  | dash escapes, c => if c = '-' then lineComment escapes else ofCode c
  | lineComment escapes, c => if isNewline c then if escapes then gap true else code else lineComment escapes
  | slash, c => if c = '*' then blockComment 1 .plain else ofCode c
  | blockComment depth mark, c =>
    if mark = .star ∧ c = '/' then if depth ≤ 1 then code else blockComment (depth - 1) .plain
    else if mark = .slash ∧ c = '*' then blockComment (depth + 1) .plain
    else blockComment depth (if c = '*' then .star else if c = '/' then .slash else .plain)

/-- After a text. -/
def after (s : LexState) (text : List Char) : LexState := text.foldl next s

@[simp] theorem after_nil (s : LexState) : s.after [] = s := rfl

@[simp] theorem after_cons (s : LexState) (c : Char) (text : List Char) : s.after (c :: text) = (s.next c).after text := rfl

@[simp] theorem after_append (s : LexState) (text text' : List Char) : s.after (text ++ text') = (s.after text).after text' :=
  List.foldl_append

/-- A `$` here begins a token, which is a placeholder if a digit follows. -/
def beginsPlaceholder (s : LexState) : Prop := s.next '$' = dollar

instance (s : LexState) : Decidable s.beginsPlaceholder := inferInstanceAs (Decidable (_ = _))

/-- The digits of a placeholder end in one state. -/
theorem after_digits {digits : List Char} (hdigits : ∀ d ∈ digits, d.isDigit = true) : param.after digits = param := by
  induction digits with
  | nil => rfl
  | cons d digits ih =>
    have hd : d.isDigit = true := hdigits d List.mem_cons_self
    rw [after_cons, next, if_pos hd]
    exact ih fun d' hd' => hdigits d' (List.mem_cons_of_mem _ hd')

/-- A placeholder is read as one. -/
theorem after_placeholder {s : LexState} (h : s.beginsPlaceholder) {digits : List Char} (hne : digits ≠ [])
    (hdigits : ∀ d ∈ digits, d.isDigit = true) : s.after ('$' :: digits) = param := by
  obtain ⟨d, digits, rfl⟩ := List.exists_cons_of_ne_nil hne
  have hd : d.isDigit = true := hdigits d List.mem_cons_self
  have hfirst : dollar.next d = param := by rw [next, if_pos hd]
  rw [after_cons, h, after_cons, hfirst]
  exact after_digits fun d' hd' => hdigits d' (List.mem_cons_of_mem _ hd')

end LexState

end Sql
