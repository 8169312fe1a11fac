import PgBoss.Ecma.Text

/-!
# Dates as text

The calendar fields of an instant, in milliseconds since 1970, and its ISO text. While the year has four
digits, the text of one instant comes before that of another when its second does.
-/

namespace Ecma

namespace Date

/-- The milliseconds of a day. -/
def dayMillis : ℤ := 86400000

/-- The day a year starts on. -/
def dayFromYear (y : ℤ) : ℤ := 365 * (y - 1970) + (y - 1969) / 4 - (y - 1901) / 100 + (y - 1601) / 400

/-- The year of a day, looked for around its mean place. -/
def yearOfDay (d : ℤ) : ℤ :=
  let y := 1970 + d * 400 / 146097
  if d < dayFromYear y then y - 1 else if d < dayFromYear (y + 1) then y else y + 1

/-- The days of a year before its month `m`, counted from 0. -/
def daysBefore (leap : ℤ) (m : ℕ) : ℤ :=
  [0, 31, 59 + leap, 90 + leap, 120 + leap, 151 + leap, 181 + leap, 212 + leap, 243 + leap, 273 + leap, 304 + leap,
    334 + leap].getD m (365 + leap)

/-- 1 in a leap year, else 0. -/
def leapDays (y : ℤ) : ℤ := dayFromYear (y + 1) - dayFromYear y - 365

/-- The month, from 0, of the day with so many days of its year before it. -/
def monthOf (leap dayOfYear : ℤ) : ℕ := ((List.range 12).filter fun m => decide (daysBefore leap m ≤ dayOfYear)).length - 1

/-- The year, month and day of an instant, and its hour, minute, second and millisecond. -/
structure Fields where
  year : ℤ
  month : ℕ
  day : ℕ
  hour : ℕ
  minute : ℕ
  second : ℕ
  millisecond : ℕ
  deriving DecidableEq, Repr

def fields (t : ℤ) : Fields :=
  let day := t / dayMillis
  let year := yearOfDay day
  let dayOfYear := day - dayFromYear year
  let month := monthOf (leapDays year) dayOfYear
  let clock := (t % dayMillis).toNat
  { year, month := month + 1, day := (dayOfYear - daysBefore (leapDays year) month).toNat + 1
    hour := clock / 3600000, minute := clock / 60000 % 60, second := clock / 1000 % 60, millisecond := clock % 1000 }

example : fields 1709210096789 = ⟨2024, 2, 29, 12, 34, 56, 789⟩ := by decide
example : fields (-1) = ⟨1969, 12, 31, 23, 59, 59, 999⟩ := by decide

section Calendar

theorem dayFromYear_yearOfDay (d : ℤ) : dayFromYear (yearOfDay d) ≤ d ∧ d < dayFromYear (yearOfDay d + 1) := by
  have hbelow : dayFromYear (1970 + d * 400 / 146097 - 1) ≤ d := by unfold dayFromYear; omega
  have habove : d < dayFromYear (1970 + d * 400 / 146097 + 1 + 1) := by unfold dayFromYear; omega
  unfold yearOfDay
  dsimp only
  split_ifs with hbefore hin
  · exact ⟨hbelow, by rwa [Int.sub_add_cancel]⟩
  · exact ⟨not_lt.mp hbefore, hin⟩
  · exact ⟨not_lt.mp hin, habove⟩

theorem dayFromYear_mono {y z : ℤ} (h : y ≤ z) : dayFromYear y ≤ dayFromYear z := by
  unfold dayFromYear; omega

/-- A day is of an earlier year before the first day of its own. -/
theorem yearOfDay_mono {d e : ℤ} (h : d ≤ e) : yearOfDay d ≤ yearOfDay e := by
  by_contra hlt
  have hstart := dayFromYear_mono (by omega : yearOfDay e + 1 ≤ yearOfDay d)
  have hd := (dayFromYear_yearOfDay d).1
  have he := (dayFromYear_yearOfDay e).2
  omega

theorem leapDays_eq (y : ℤ) : leapDays y = 0 ∨ leapDays y = 1 := by
  unfold leapDays dayFromYear; omega

/-- A later day of a year is not of an earlier month. -/
theorem monthOf_mono {leap d e : ℤ} (h : d ≤ e) : monthOf leap d ≤ monthOf leap e := by
  have hsub : ((List.range 12).filter fun m => decide (daysBefore leap m ≤ d)).Sublist
      ((List.range 12).filter fun m => decide (daysBefore leap m ≤ e)) :=
    List.monotone_filter_right _ fun m hm => by
      rw [decide_eq_true_eq] at hm ⊢
      exact hm.trans h
  exact Nat.sub_le_sub_right hsub.length_le 1

theorem monthOf_lt (leap d : ℤ) : monthOf leap d < 12 := by
  have hle := List.length_filter_le (fun m => decide (daysBefore leap m ≤ d)) (List.range 12)
  rw [List.length_range] at hle
  unfold monthOf
  omega

/-- A day of a year is one of its month. -/
theorem daysBefore_monthOf {leap d : ℤ} (hleap : leap = 0 ∨ leap = 1) (hd : 0 ≤ d) (hyear : d < 365 + leap) :
    daysBefore leap (monthOf leap d) ≤ d ∧ d < daysBefore leap (monthOf leap d) + 31 := by
  lift d to ℕ using hd
  rcases hleap with rfl | rfl
  · exact (by decide +kernel : ∀ d < 365, daysBefore 0 (monthOf 0 (d : ℕ)) ≤ (d : ℕ) ∧ ((d : ℕ) : ℤ) < daysBefore 0 (monthOf 0 (d : ℕ)) + 31) d (by omega)
  · exact (by decide +kernel : ∀ d < 366, daysBefore 1 (monthOf 1 (d : ℕ)) ≤ (d : ℕ) ∧ ((d : ℕ) : ℤ) < daysBefore 1 (monthOf 1 (d : ℕ)) + 31) d (by omega)

end Calendar

section Text

/-- A decimal digit. -/
def digit (n : ℕ) : Char := Char.ofNat (48 + n)

/-- A number, with zeros before it up to the width. -/
def padStart : ℕ → ℕ → List Char
  | 0, n => if n = 0 then [] else Nat.toDigits 10 n
  | width + 1, n => padStart width (n / 10) ++ [digit (n % 10)]

/-- The year of an ISO text, with a sign and two more digits where it has not four. -/
def yearText (y : ℤ) : List Char :=
  if 0 ≤ y ∧ y ≤ 9999 then padStart 4 y.toNat else (if 0 ≤ y then '+' else '-') :: padStart 6 y.natAbs

/-- A date and a time of day to the second. -/
def secondText (separator : Char) (f : Fields) : List Char :=
  yearText f.year ++ '-' :: padStart 2 f.month ++ '-' :: padStart 2 f.day ++ separator :: padStart 2 f.hour ++
    ':' :: padStart 2 f.minute ++ ':' :: padStart 2 f.second

/-- `toISOString`. -/
def toISOString (t : ℤ) : String :=
  String.ofList (secondText 'T' (fields t) ++ '.' :: padStart 3 (fields t).millisecond ++ ['Z'])

/-- An instant in a year of four digits. -/
def FourDigitYear (t : ℤ) : Prop := 0 ≤ (fields t).year ∧ (fields t).year ≤ 9999

/-- The fields have their width. -/
structure Fields.InWidth (f : Fields) : Prop where
  year : 0 ≤ f.year ∧ f.year ≤ 9999
  month : f.month < 100
  day : f.day < 100
  hour : f.hour < 100
  minute : f.minute < 100
  second : f.second < 100

theorem inWidth_fields {t : ℤ} (h : FourDigitYear t) : (fields t).InWidth := by
  have hclock : (t % dayMillis).toNat < 86400000 := by
    have := Int.emod_lt_of_pos t (by decide : (0 : ℤ) < dayMillis)
    simp only [dayMillis] at this ⊢
    omega
  obtain ⟨hstart, hend⟩ := dayFromYear_yearOfDay (t / dayMillis)
  have hdays : t / dayMillis - dayFromYear (yearOfDay (t / dayMillis)) < 365 + leapDays (yearOfDay (t / dayMillis)) := by
    unfold leapDays; omega
  have hday := (daysBefore_monthOf (leapDays_eq _) (by omega) hdays).2
  have hmonth := monthOf_lt (leapDays (yearOfDay (t / dayMillis))) (t / dayMillis - dayFromYear (yearOfDay (t / dayMillis)))
  refine ⟨h, ?_, ?_, ?_, ?_, ?_⟩ <;> dsimp only [fields] <;> omega

/-- The seconds of two instants, in the order of their fields. -/
def Fields.before (f g : Fields) : Prop :=
  f.year < g.year ∨ f.year = g.year ∧ (f.month < g.month ∨ f.month = g.month ∧ (f.day < g.day ∨ f.day = g.day ∧
    (f.hour < g.hour ∨ f.hour = g.hour ∧ (f.minute < g.minute ∨ f.minute = g.minute ∧ f.second < g.second))))

/-- An instant of an earlier second has the fields of one. -/
theorem before_of_lt {a b : ℤ} (h : a / 1000 < b / 1000) : (fields a).before (fields b) := by
  rcases lt_or_eq_of_le (Int.ediv_le_ediv (by decide : (0 : ℤ) < dayMillis) (by omega : a ≤ b)) with hday | hday
  · rcases lt_or_eq_of_le (yearOfDay_mono hday.le) with hyear | hyear
    · exact .inl hyear
    · refine .inr ⟨hyear, ?_⟩
      obtain ⟨hstarta, henda⟩ := dayFromYear_yearOfDay (a / dayMillis)
      obtain ⟨hstartb, hendb⟩ := dayFromYear_yearOfDay (b / dayMillis)
      have hleap : leapDays (yearOfDay (a / dayMillis)) = leapDays (yearOfDay (b / dayMillis)) := by rw [hyear]
      have hlt : a / dayMillis - dayFromYear (yearOfDay (a / dayMillis)) < b / dayMillis - dayFromYear (yearOfDay (b / dayMillis)) := by
        rw [hyear]; omega
      rcases lt_or_eq_of_le (@monthOf_mono (leapDays (yearOfDay (b / dayMillis))) _ _ hlt.le) with hmonth | hmonth
      · left; dsimp only [fields]; rw [hleap]; omega
      · right
        have hbefore := (daysBefore_monthOf (leapDays_eq (yearOfDay (a / dayMillis)))
          (d := a / dayMillis - dayFromYear (yearOfDay (a / dayMillis))) (by omega) (by unfold leapDays; omega)).1
        dsimp only [fields]
        rw [hleap] at hbefore ⊢
        rw [hmonth] at hbefore ⊢
        exact ⟨rfl, .inl (by omega)⟩
  · have hclock : a % dayMillis / 1000 < b % dayMillis / 1000 := by
      simp only [dayMillis] at hday ⊢; omega
    have hnonneg : 0 ≤ a % dayMillis := Int.emod_nonneg _ (by decide)
    simp only [Fields.before, fields, hday, lt_self_iff_false, true_and, false_or]
    omega

/-- The code units of a text. -/
abbrev unitsOfText (text : List Char) : List ℕ := text.flatMap unitsOf

theorem unitsOf_digit (n : ℕ) (h : n < 10) : unitsOf (digit n) = [48 + n] := by
  interval_cases n <;> rfl

theorem length_units_padStart {width n : ℕ} (h : n < 10 ^ width) : (unitsOfText (padStart width n)).length = width := by
  induction width generalizing n with
  | zero =>
    obtain rfl : n = 0 := by simpa using h
    rfl
  | succ width ih =>
    have hdiv : n / 10 < 10 ^ width := by rw [pow_succ] at h; omega
    simp [padStart, unitsOfText, unitsOf_digit (n % 10) (by omega), ih hdiv]

/-- Numbers of one width compare as their texts do. -/
theorem units_padStart_lt {width m n : ℕ} (hm : m < 10 ^ width) (hn : n < 10 ^ width) (h : m < n) :
    unitsOfText (padStart width m) < unitsOfText (padStart width n) := by
  induction width generalizing m n with
  | zero =>
    rw [pow_zero] at hn
    omega
  | succ width ih =>
    rw [pow_succ] at hm hn
    have hlength : (unitsOfText (padStart width (m / 10))).length = (unitsOfText (padStart width (n / 10))).length := by
      rw [length_units_padStart (by omega), length_units_padStart (by omega)]
    simp only [padStart, unitsOfText, List.flatMap_append, List.flatMap_cons, List.flatMap_nil, List.append_nil,
      unitsOf_digit (m % 10) (by omega), unitsOf_digit (n % 10) (by omega)]
    rw [append_lt_append_iff hlength]
    rcases lt_or_eq_of_le (Nat.div_le_div_right h.le : m / 10 ≤ n / 10) with hdiv | hdiv
    · exact .inl (ih (by omega) (by omega) hdiv)
    · refine .inr ⟨by rw [hdiv], ?_⟩
      rw [List.cons_lt_cons_iff]
      left
      omega

/-- A field decides before what follows it. -/
theorem units_field_lt {width m n : ℕ} {x y : List ℕ} (hm : m < 10 ^ width) (hn : n < 10 ^ width)
    (h : m < n ∨ m = n ∧ x < y) : unitsOfText (padStart width m) ++ x < unitsOfText (padStart width n) ++ y := by
  rw [append_lt_append_iff (by rw [length_units_padStart hm, length_units_padStart hn])]
  rcases h with hlt | ⟨rfl, hxy⟩
  · exact .inl (units_padStart_lt hm hn hlt)
  · exact .inr ⟨rfl, hxy⟩

/-- The text of the earlier fields comes first. -/
theorem units_secondText_lt {f g : Fields} {separator : Char} (hf : f.InWidth) (hg : g.InWidth) (h : f.before g) :
    unitsOfText (secondText separator f) < unitsOfText (secondText separator g) := by
  have hseparator : ∀ {c : Char} {x y : List ℕ}, x < y → unitsOf c ++ x < unitsOf c ++ y := fun hxy => by
    rw [append_lt_append_iff rfl]
    exact .inr ⟨rfl, hxy⟩
  simp only [secondText, yearText, if_pos hf.year, if_pos hg.year, unitsOfText, List.flatMap_append, List.flatMap_cons,
    List.append_assoc]
  obtain ⟨hy, hY⟩ := hf.year
  obtain ⟨hy', hY'⟩ := hg.year
  refine units_field_lt (by omega) (by omega) (h.imp (by omega) (And.imp (by omega) fun h => hseparator ?_))
  refine units_field_lt hf.month hg.month (h.imp_right (And.imp_right fun h => hseparator ?_))
  refine units_field_lt hf.day hg.day (h.imp_right (And.imp_right fun h => hseparator ?_))
  refine units_field_lt hf.hour hg.hour (h.imp_right (And.imp_right fun h => hseparator ?_))
  refine units_field_lt hf.minute hg.minute (h.imp_right (And.imp_right fun h => hseparator ?_))
  exact units_padStart_lt hf.second hg.second h

end Text

end Date

end Ecma
