import PgBoss.Schema
import PgBoss.Ecma.Dates

/-!
# Instants as text

`utcIsoText` writes an instant to the microsecond for a parameter of a later statement, which casts it back. The
text does not say the era, so it is one of an instant since year 1.
-/

namespace PgBoss

open Ecma.Date

/-- The year as `to_char` writes it, which counts the years before year 1 from there. -/
def yearOfEra (year : ℤ) : ℕ := if 0 < year then year.toNat else (1 - year).toNat

/-- `utcIsoText`. -/
def utcIsoText (t : Timestamp) : List Char :=
  let f := fields (t / 1000)
  padStart 4 (yearOfEra f.year) ++ '-' :: padStart 2 f.month ++ '-' :: padStart 2 f.day ++ 'T' :: padStart 2 f.hour ++
    ':' :: padStart 2 f.minute ++ ':' :: padStart 2 f.second ++ '.' :: padStart 6 (t % 1000000).toNat ++ ['Z']

/-- A decimal number at the front of a text, after a part of it was read, and what follows. -/
def readNumber (acc : ℕ) : List Char → ℕ × List Char
  | [] => (acc, [])
  | c :: rest => if '0' ≤ c ∧ c ≤ '9' then readNumber (acc * 10 + (c.toNat - 48)) rest else (acc, c :: rest)

/-- A number, and what follows the character after it. -/
def readField (mark : Char) (text : List Char) : Option (ℕ × List Char) :=
  match readNumber 0 text with
  | (n, c :: rest) => if c = mark then some (n, rest) else none
  | (_, []) => none

/-- The instant of calendar fields and the microseconds of its second. -/
def instantOf (year month day hour minute second micros : ℤ) : ℤ :=
  let date := dayFromYear year + daysBefore (leapDays year) (month - 1).toNat + day - 1
  (((date * 24 + hour) * 60 + minute) * 60 + second) * 1000000 + micros

/-- `text::timestamptz`, of a text of the form `utcIsoText` writes. -/
def timestamptz (text : List Char) : Option Timestamp := do
  let (year, text) ← readField '-' text
  let (month, text) ← readField '-' text
  let (day, text) ← readField 'T' text
  let (hour, text) ← readField ':' text
  let (minute, text) ← readField ':' text
  let (second, text) ← readField '.' text
  let (micros, _) ← readField 'Z' text
  return instantOf year month day hour minute second micros

/-- An instant since year 1. -/
def CommonEra (t : Timestamp) : Prop := 0 < (fields (t / 1000)).year

section RoundTrip

theorem readNumber_digit {acc d : ℕ} (hd : d < 10) (rest : List Char) :
    readNumber acc (digit d :: rest) = readNumber (acc * 10 + d) rest := by
  have hdigit : ('0' ≤ digit d ∧ digit d ≤ '9') ∧ (digit d).toNat - 48 = d := by
    interval_cases d <;> decide
  rw [readNumber, if_pos hdigit.1, hdigit.2]

theorem readNumber_toDigits (n : ℕ) (rest : List Char) : readNumber 0 (Nat.toDigits 10 n ++ rest) = readNumber n rest := by
  have hchar : ∀ d < 10, Nat.digitChar d = digit d := by decide
  induction n using Nat.strong_induction_on generalizing rest with
  | _ n ih =>
    by_cases hn : n < 10
    · rw [Nat.toDigits_of_lt_base hn, hchar n hn, List.singleton_append, readNumber_digit hn]
      simp
    · rw [Nat.toDigits_of_base_le (by decide) (by omega), List.append_assoc, ih (n / 10) (by omega), List.singleton_append,
        hchar _ (by omega), readNumber_digit (by omega)]
      congr 1
      omega

/-- A padded number reads back. -/
theorem readNumber_padStart (width n : ℕ) (rest : List Char) : readNumber 0 (padStart width n ++ rest) = readNumber n rest := by
  induction width generalizing n rest with
  | zero =>
    rw [padStart]
    split_ifs with hn
    · rw [hn, List.nil_append]
    · exact readNumber_toDigits n rest
  | succ width ih =>
    rw [padStart, List.append_assoc, ih, List.singleton_append, readNumber_digit (by omega)]
    congr 1
    omega

theorem readField_padStart {width n : ℕ} {mark : Char} {rest : List Char} (hmark : ¬ ('0' ≤ mark ∧ mark ≤ '9')) :
    readField mark (padStart width n ++ mark :: rest) = some (n, rest) := by
  rw [readField, readNumber_padStart, readNumber, if_neg hmark]
  simp

/-- An instant is that of its fields. -/
theorem instantOf_fields (t : ℤ) :
    instantOf (fields (t / 1000)).year (fields (t / 1000)).month (fields (t / 1000)).day (fields (t / 1000)).hour
      (fields (t / 1000)).minute (fields (t / 1000)).second (t % 1000000).toNat = t := by
  obtain ⟨hstart, hend⟩ := dayFromYear_yearOfDay (t / 1000 / dayMillis)
  have hdays := (daysBefore_monthOf (leapDays_eq (yearOfDay (t / 1000 / dayMillis)))
    (d := t / 1000 / dayMillis - dayFromYear (yearOfDay (t / 1000 / dayMillis))) (by omega) (by unfold leapDays; omega)).1
  have hmonth : ((((fields (t / 1000)).month : ℕ) : ℤ) - 1).toNat =
      monthOf (leapDays (yearOfDay (t / 1000 / dayMillis))) (t / 1000 / dayMillis - dayFromYear (yearOfDay (t / 1000 / dayMillis))) := by
    simp [fields]
  have hyear : (fields (t / 1000)).year = yearOfDay (t / 1000 / dayMillis) := rfl
  rw [instantOf, hmonth, hyear]
  simp only [fields]
  generalize dayFromYear (yearOfDay (t / 1000 / dayMillis)) = first at *
  generalize daysBefore _ _ = before at *
  simp only [dayMillis] at *
  omega

/-- The text of an instant since year 1 is cast back to it. -/
theorem timestamptz_utcIsoText {t : Timestamp} (h : CommonEra t) : timestamptz (utcIsoText t) = some t := by
  have hyear : yearOfEra (fields (t / 1000)).year = (fields (t / 1000)).year.toNat := if_pos h
  have hyearInt : ((((fields (t / 1000)).year).toNat : ℕ) : ℤ) = (fields (t / 1000)).year := Int.toNat_of_nonneg (le_of_lt h)
  simp only [timestamptz, utcIsoText, List.append_assoc, List.cons_append, hyear]
  simp only [readField_padStart (by decide : ¬ ('0' ≤ '-' ∧ '-' ≤ '9')), readField_padStart (by decide : ¬ ('0' ≤ 'T' ∧ 'T' ≤ '9')),
    readField_padStart (by decide : ¬ ('0' ≤ ':' ∧ ':' ≤ '9')), readField_padStart (by decide : ¬ ('0' ≤ '.' ∧ '.' ≤ '9')),
    readField_padStart (by decide : ¬ ('0' ≤ 'Z' ∧ 'Z' ≤ '9')), Option.bind_eq_bind, Option.bind_some]
  rw [Option.pure_def, Option.some.injEq, hyearInt]
  exact instantOf_fields t

end RoundTrip

end PgBoss
