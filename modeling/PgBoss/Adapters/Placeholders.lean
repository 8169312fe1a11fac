import Mathlib

/-!
# Placeholders

Splitting a statement at its `$N` and putting it together again, an array that is cast to an array type expanded into
scalar parameters. Texts are lists of characters.
-/

namespace PgBoss

/-- A value to bind, as far as the adapters look at it. -/
inductive Bound (V : Type*)
  | undefined
  | scalar (value : V)
  | array (elements : List (Bound V))

variable {V : Type*}

/-- `re.exec` from an index on: what is before the first match of `/\$(\d+)/`, its digits, and what follows. -/
def execPlaceholder : List Char → Option (List Char × List Char × List Char)
  | [] => none
  | c :: text =>
    if c = '$' ∧ text.takeWhile Char.isDigit ≠ [] then some ([], text.takeWhile Char.isDigit, text.dropWhile Char.isDigit)
    else (execPlaceholder text).map fun (before, digits, rest) => (c :: before, digits, rest)

/-- `values?.[Number(match[1]) - 1]`. -/
def boundAt (values : Option (List (Bound V))) (digits : List Char) : Bound V :=
  match Nat.ofDigitChars 10 digits 0, values with
  | n + 1, some values => values.getD n .undefined
  | _, _ => .undefined

theorem execPlaceholder_length {text before digits rest : List Char} (h : execPlaceholder text = some (before, digits, rest)) :
    rest.length < text.length := by
  induction text generalizing before with
  | nil => cases h
  | cons c text ih =>
    unfold execPlaceholder at h
    split_ifs at h with hmatch
    · cases h
      have hle := (List.dropWhile_sublist Char.isDigit (l := text)).length_le
      rw [List.length_cons]
      omega
    · obtain ⟨⟨before', digits', rest'⟩, hexec, heq⟩ := Option.map_eq_some_iff.mp h
      cases heq
      exact Nat.lt_succ_of_lt (ih hexec)

/-- `parsePlaceholders`. -/
def parsePlaceholders (values : Option (List (Bound V))) (text : List Char) : List (List Char) × List (Bound V) :=
  match h : execPlaceholder text with
  | none => ([text], [])
  | some (before, digits, rest) =>
    have := execPlaceholder_length h
    let (parts, reordered) := parsePlaceholders values rest
    (before :: parts, boundAt values digits :: reordered)
termination_by text.length

/-- `[a-z_]` and `[a-z0-9_]`, in either case. -/
def isTypeStart (c : Char) : Bool := c.isAlpha || c = '_'

def isTypeChar (c : Char) : Bool := c.isAlphanum || c = '_'

/-- `ARRAY_CAST.test`. -/
def arrayCast : List Char → Bool
  | ':' :: ':' :: c :: text => isTypeStart c && ['[', ']'].isPrefixOf (text.dropWhile isTypeChar)
  | _ => false

/-- The text of a parameter. -/
def paramText (n : ℕ) : List Char := '$' :: Nat.toDigits 10 n

/-- The parameters for values that follow `n` others, between commas. -/
def paramTexts (n count : ℕ) : List Char := [','].intercalate ((List.range count).map fun i => paramText (n + i + 1))

/-- `ARRAY[` and `]` around parameters. -/
def arrayText (params : List Char) : List Char := 'A' :: 'R' :: 'R' :: 'A' :: 'Y' :: '[' :: params ++ [']']

/-- The text a value is put in with, behind `n` others, and what it adds to them: its elements, if it is an array with an
array cast. -/
def expandOne (n : ℕ) (value : Bound V) (part : List Char) : List Char × List (Bound V) :=
  match value with
  | .array elements =>
    if arrayCast part then (arrayText (paramTexts n elements.length), elements) else (paramText (n + 1), [value])
  | _ => (paramText (n + 1), [value])

/-- The loop of `expandArrayParams`. -/
def expandFrom (n : ℕ) : List (List Char) → List (Bound V) → List Char × List (Bound V)
  | part :: parts, value :: reordered =>
    let (replaced, pushed) := expandOne n value part
    let (text, expanded) := expandFrom (n + pushed.length) parts reordered
    (replaced ++ part ++ text, pushed ++ expanded)
  | _, _ => ([], [])

/-- `expandArrayParams`. -/
def expandArrayParams (values : Option (List (Bound V))) (text : List Char) : List Char × List (Bound V) :=
  match parsePlaceholders values text with
  | (part :: parts, reordered) =>
    let (rewritten, expanded) := expandFrom 0 parts reordered
    (part ++ rewritten, expanded)
  | ([], _) => ([], [])

end PgBoss
