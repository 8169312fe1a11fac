import Mathlib

/-!
# Script text

Strings compare by their UTF-16 code units. A string put in JSON can be read off the front of whatever
follows it, so an array of strings is known by its JSON.
-/

namespace Ecma

/-- The UTF-16 code units of a character. -/
def unitsOf (c : Char) : List ℕ :=
  if c.toNat < 0x10000 then [c.toNat]
  else [0xD800 + (c.toNat - 0x10000) / 0x400, 0xDC00 + (c.toNat - 0x10000) % 0x400]

/-- The code units of a string. -/
def codeUnits (s : String) : List ℕ := s.toList.flatMap unitsOf

/-- `a <= b` of two strings. -/
def textLE (a b : String) : Bool := decide (codeUnits a ≤ codeUnits b)

theorem textLE_iff {a b : String} : textLE a b = true ↔ codeUnits a ≤ codeUnits b := by simp [textLE]

@[simp] theorem textLE_refl {a : String} : textLE a a = true := textLE_iff.mpr le_rfl

theorem textLE_trans {a b c : String} (hab : textLE a b = true) (hbc : textLE b c = true) : textLE a c = true :=
  textLE_iff.mpr ((textLE_iff.mp hab).trans (textLE_iff.mp hbc))

theorem textLE_of_not {a b : String} (h : ¬ textLE a b = true) : textLE b a = true := by
  rw [textLE_iff, not_le] at h
  exact textLE_iff.mpr h.le

section Fields

variable {α : Type*} [LinearOrder α] {a b x y : List α}

/-- Texts of one length compare before what follows them. -/
theorem append_lt_append_iff (hlength : a.length = b.length) : a ++ x < b ++ y ↔ a < b ∨ a = b ∧ x < y := by
  induction a generalizing b with
  | nil =>
    obtain rfl : b = [] := List.length_eq_zero_iff.mp hlength.symm
    simp
  | cons head tail ih =>
    cases b with
    | nil => exact nomatch hlength
    | cons head' tail' =>
      have htail : tail.length = tail'.length := by simpa using hlength
      simp only [List.cons_append, List.cons_lt_cons_iff, ih htail, List.cons.injEq]
      tauto

end Fields

section Json

/-- A hexadecimal digit of JSON. -/
def hexDigit (n : ℕ) : Char := if n < 10 then Char.ofNat (48 + n) else Char.ofNat (87 + n)

/-- A character of a string in JSON. -/
def jsonEscape (c : Char) : List Char :=
  if c = '"' then ['\\', '"']
  else if c = '\\' then ['\\', '\\']
  else if c.toNat = 8 then ['\\', 'b']
  else if c.toNat = 9 then ['\\', 't']
  else if c.toNat = 10 then ['\\', 'n']
  else if c.toNat = 12 then ['\\', 'f']
  else if c.toNat = 13 then ['\\', 'r']
  else if c.toNat < 32 then ['\\', 'u', '0', '0', hexDigit (c.toNat / 16), hexDigit (c.toNat % 16)]
  else [c]

/-- A string in JSON. -/
def jsonString (s : String) : List Char := '"' :: s.toList.flatMap jsonEscape ++ ['"']

/-- `JSON.stringify([a, b])`. -/
def jsonPair (a b : String) : String := String.ofList ('[' :: jsonString a ++ ',' :: jsonString b ++ [']'])

/-- The character a JSON string goes on with, and what follows it. -/
def jsonUnescape : List Char → Option (Char × List Char)
  | '\\' :: 'b' :: rest => some (Char.ofNat 8, rest)
  | '\\' :: 't' :: rest => some (Char.ofNat 9, rest)
  | '\\' :: 'n' :: rest => some (Char.ofNat 10, rest)
  | '\\' :: 'f' :: rest => some (Char.ofNat 12, rest)
  | '\\' :: 'r' :: rest => some (Char.ofNat 13, rest)
  | '\\' :: 'u' :: '0' :: '0' :: a :: b :: rest =>
    let value (c : Char) := if c.toNat < 58 then c.toNat - 48 else c.toNat - 87
    some (Char.ofNat (16 * value a + value b), rest)
  | '\\' :: c :: rest => some (c, rest)
  | '"' :: _ => none
  | c :: rest => some (c, rest)
  | [] => none

theorem jsonUnescape_plain {c : Char} {rest : List Char} (hquote : c ≠ '"') (hslash : c ≠ '\\') :
    jsonUnescape (c :: rest) = some (c, rest) := by
  unfold jsonUnescape
  split <;> simp_all

/-- An escaped character reads back. -/
theorem jsonUnescape_escape (c : Char) (rest : List Char) : jsonUnescape (jsonEscape c ++ rest) = some (c, rest) := by
  by_cases hcontrol : c.toNat < 32
  · have hread : ∀ n < 32, jsonUnescape (jsonEscape (Char.ofNat n) ++ rest) = some (Char.ofNat n, rest) := by
      intro n hn
      interval_cases n <;> rfl
    simpa using hread c.toNat hcontrol
  · by_cases hquote : c = '"'
    · subst hquote; rfl
    by_cases hslash : c = '\\'
    · subst hslash; rfl
    have hplain : jsonEscape c = [c] := by
      simp only [jsonEscape, hquote, hslash, hcontrol, if_false]
      rw [if_neg (by omega), if_neg (by omega), if_neg (by omega), if_neg (by omega), if_neg (by omega)]
    rw [hplain]
    exact jsonUnescape_plain hquote hslash

/-- A string in JSON ends where its characters do. -/
theorem jsonString_inj {s t : List Char} {x y : List Char}
    (h : s.flatMap jsonEscape ++ '"' :: x = t.flatMap jsonEscape ++ '"' :: y) : s = t ∧ x = y := by
  induction s generalizing t with
  | nil =>
    cases t with
    | nil => simpa using h
    | cons d t =>
      have hread := congrArg jsonUnescape h
      rw [List.flatMap_cons, List.append_assoc, jsonUnescape_escape] at hread
      exact nomatch hread
  | cons c s ih =>
    have hread := congrArg jsonUnescape h
    rw [List.flatMap_cons, List.append_assoc, jsonUnescape_escape] at hread
    cases t with
    | nil => exact nomatch hread
    | cons d t =>
      rw [List.flatMap_cons, List.append_assoc, jsonUnescape_escape, Option.some.injEq, Prod.mk.injEq] at hread
      obtain ⟨rfl, hrest⟩ := hread
      obtain ⟨rfl, hxy⟩ := ih hrest
      exact ⟨rfl, hxy⟩

theorem jsonPair_inj {a b a' b' : String} : jsonPair a b = jsonPair a' b' ↔ a = a' ∧ b = b' := by
  refine ⟨fun h => ?_, by rintro ⟨rfl, rfl⟩; rfl⟩
  have hlist := congrArg String.toList h
  simp only [jsonPair, String.toList_ofList, jsonString, List.cons_append, List.append_assoc, List.nil_append,
    List.cons.injEq, true_and] at hlist
  obtain ⟨hfirst, hrest⟩ := jsonString_inj hlist
  simp only [List.cons.injEq, true_and] at hrest
  obtain ⟨hsecond, -⟩ := jsonString_inj hrest
  exact ⟨String.toList_injective hfirst, String.toList_injective hsecond⟩

end Json

end Ecma
