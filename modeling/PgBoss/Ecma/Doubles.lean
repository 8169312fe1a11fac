import Mathlib

/-!
# Numbers of double precision

The numbers of scripts have 53 binary digits, and every operation answers with the number nearest to its exact result.
They are modelled as rationals, in the range of normal numbers: neither overflow nor underflow is modelled. On
numbers from zero, rounding keeps the order, and it keeps every integer up to 2^53.
-/

namespace Ecma

/-- The nearest integer, of two that are as near the even one. -/
def roundEven (q : ℚ) : ℤ :=
  if 2 * (q - ⌊q⌋) < 1 ∨ (2 * (q - ⌊q⌋) = 1 ∧ ⌊q⌋ % 2 = 0) then ⌊q⌋ else ⌊q⌋ + 1

/-- The distance of neighbouring numbers where `q` lies. -/
def spacing (q : ℚ) : ℚ := 2 ^ (Int.log 2 |q| - 52)

/-- The nearest number, of two that are as near the one with an even last digit. -/
def roundDouble (q : ℚ) : ℚ := if q = 0 then 0 else roundEven (q / spacing q) * spacing q

/-- The operations `+`, `-`, `*` and `/`, of numbers. -/
def add (x y : ℚ) : ℚ := roundDouble (x + y)

def sub (x y : ℚ) : ℚ := roundDouble (x - y)

def mul (x y : ℚ) : ℚ := roundDouble (x * y)

def div (x y : ℚ) : ℚ := roundDouble (x / y)

section Rounding

variable {x y : ℚ}

theorem roundEven_intCast (n : ℤ) : roundEven n = n := by
  simp [roundEven]

theorem le_roundEven (x : ℚ) : ⌊x⌋ ≤ roundEven x := by
  unfold roundEven
  split_ifs <;> omega

theorem roundEven_le (x : ℚ) : roundEven x ≤ ⌊x⌋ + 1 := by
  unfold roundEven
  split_ifs <;> omega

theorem roundEven_mono (h : x ≤ y) : roundEven x ≤ roundEven y := by
  rcases (Int.floor_le_floor h).lt_or_eq with hlt | heq
  · have hx := roundEven_le x
    have hy := le_roundEven y
    omega
  · unfold roundEven
    rw [heq]
    split_ifs with hx hy hy
    · exact le_rfl
    · omega
    · -- below a number that is rounded down, none is rounded up
      exfalso
      refine hx (hy.imp (fun hlt => by linarith) fun heven => ⟨?_, heven.2⟩)
      rw [not_or, not_and_or] at hx
      rcases hx.2 with hne | hodd
      · exact absurd (by linarith [not_lt.mp hx.1, heven.1] : 2 * (x - (⌊y⌋ : ℚ)) = 1) hne
      · exact absurd heven.2 hodd
    · exact le_rfl

theorem spacing_pos (q : ℚ) : 0 < spacing q := zpow_pos two_pos _

/-- Between two powers of two, the rounded number stays between them. -/
theorem roundDouble_between (hx : 0 < x) :
    (2 : ℚ) ^ Int.log 2 x ≤ roundDouble x ∧ roundDouble x ≤ 2 ^ (Int.log 2 x + 1) := by
  have hspacing : spacing x = 2 ^ (Int.log 2 x - 52) := by rw [spacing, abs_of_pos hx]
  have hlow : ((2 ^ 52 : ℤ) : ℚ) ≤ x / spacing x := by
    rw [le_div_iff₀ (spacing_pos x), hspacing]
    calc ((2 ^ 52 : ℤ) : ℚ) * 2 ^ (Int.log 2 x - 52) = 2 ^ (52 : ℤ) * 2 ^ (Int.log 2 x - 52) := by norm_num
      _ = 2 ^ Int.log 2 x := by rw [← zpow_add₀ two_ne_zero]; congr 1; omega
      _ ≤ x := Int.zpow_log_le_self one_lt_two hx
  have hhigh : x / spacing x ≤ ((2 ^ 53 : ℤ) : ℚ) := by
    rw [div_le_iff₀ (spacing_pos x), hspacing]
    calc x ≤ 2 ^ (Int.log 2 x + 1) := (Int.lt_zpow_succ_log_self one_lt_two x).le
      _ = 2 ^ (53 : ℤ) * 2 ^ (Int.log 2 x - 52) := by rw [← zpow_add₀ two_ne_zero]; congr 1; omega
      _ = ((2 ^ 53 : ℤ) : ℚ) * 2 ^ (Int.log 2 x - 52) := by norm_num
  have hlow' := roundEven_mono hlow
  have hhigh' := roundEven_mono hhigh
  rw [roundEven_intCast] at hlow' hhigh'
  rw [roundDouble, if_neg hx.ne']
  constructor
  · calc (2 : ℚ) ^ Int.log 2 x = 2 ^ (52 : ℤ) * 2 ^ (Int.log 2 x - 52) := by rw [← zpow_add₀ two_ne_zero]; congr 1; omega
      _ = ((2 ^ 52 : ℤ) : ℚ) * spacing x := by rw [hspacing]; norm_num
      _ ≤ roundEven (x / spacing x) * spacing x :=
        mul_le_mul_of_nonneg_right (by exact_mod_cast hlow') (spacing_pos x).le
  · calc roundEven (x / spacing x) * spacing x ≤ ((2 ^ 53 : ℤ) : ℚ) * spacing x :=
        mul_le_mul_of_nonneg_right (by exact_mod_cast hhigh') (spacing_pos x).le
      _ = 2 ^ (53 : ℤ) * 2 ^ (Int.log 2 x - 52) := by rw [hspacing]; norm_num
      _ = 2 ^ (Int.log 2 x + 1) := by rw [← zpow_add₀ two_ne_zero]; congr 1; omega

theorem roundDouble_pos (hx : 0 < x) : 0 < roundDouble x := (zpow_pos two_pos _).trans_le (roundDouble_between hx).1

theorem roundDouble_mono (hx : 0 ≤ x) (h : x ≤ y) : roundDouble x ≤ roundDouble y := by
  rcases hx.eq_or_lt with rfl | hx
  · rcases h.eq_or_lt with rfl | hy
    · exact le_rfl
    · rw [roundDouble, if_pos rfl]
      exact (roundDouble_pos hy).le
  · have hy : 0 < y := hx.trans_le h
    have hlog : Int.log 2 x ≤ Int.log 2 y := Int.log_mono_right hx h
    rcases hlog.lt_or_eq with hlt | heq
    · calc roundDouble x ≤ 2 ^ (Int.log 2 x + 1) := (roundDouble_between hx).2
        _ ≤ 2 ^ Int.log 2 y := zpow_le_zpow_right₀ one_le_two (by omega)
        _ ≤ roundDouble y := (roundDouble_between hy).1
    · have hspacing : spacing x = spacing y := by rw [spacing, spacing, abs_of_pos hx, abs_of_pos hy, heq]
      have hround : roundEven (x / spacing y) ≤ roundEven (y / spacing y) :=
        roundEven_mono (div_le_div_of_nonneg_right h (spacing_pos y).le)
      rw [roundDouble, roundDouble, if_neg hx.ne', if_neg hy.ne', hspacing]
      exact mul_le_mul_of_nonneg_right (by exact_mod_cast hround) (spacing_pos y).le

theorem roundDouble_nonneg (hx : 0 ≤ x) : 0 ≤ roundDouble x := by
  rcases hx.eq_or_lt with rfl | hx
  · rw [roundDouble, if_pos rfl]
  · exact (roundDouble_pos hx).le

theorem roundEven_near (x : ℚ) : |(roundEven x : ℚ) - x| ≤ 1 / 2 := by
  have hlow := Int.floor_le x
  have hhigh := Int.lt_floor_add_one x
  unfold roundEven
  split_ifs with hdown
  · rw [abs_le]
    rcases hdown with hlt | ⟨heq, -⟩ <;> constructor <;> linarith
  · rw [not_or] at hdown
    have hhalf := not_lt.mp hdown.1
    rw [abs_le]
    push_cast
    constructor <;> linarith

/-- Rounding is off by no more than one part of 2^53. -/
theorem roundDouble_near (hx : 0 ≤ x) : |roundDouble x - x| ≤ x / 2 ^ 53 := by
  rcases hx.eq_or_lt with rfl | hx
  · simp [roundDouble]
  have hspacing : spacing x ≤ x / 2 ^ 52 := by
    rw [spacing, abs_of_pos hx, zpow_sub₀ two_ne_zero]
    exact div_le_div_of_nonneg_right (Int.zpow_log_le_self one_lt_two hx) (by positivity)
  rw [roundDouble, if_neg hx.ne']
  calc |roundEven (x / spacing x) * spacing x - x| = |(roundEven (x / spacing x) : ℚ) - x / spacing x| * spacing x := by
        rw [← abs_of_pos (spacing_pos x), ← abs_mul, abs_of_pos (spacing_pos x), sub_mul, div_mul_cancel₀ _ (spacing_pos x).ne']
    _ ≤ 1 / 2 * (x / 2 ^ 52) := mul_le_mul (roundEven_near _) hspacing (spacing_pos x).le (by norm_num)
    _ = x / 2 ^ 53 := by ring

/-- A multiple of the spacing is a number. -/
theorem roundDouble_of_multiple {k : ℤ} (h : x = k * spacing x) : roundDouble x = x := by
  by_cases hzero : x = 0
  · rw [roundDouble, if_pos hzero, hzero]
  · have hdiv : x / spacing x = k := by rw [div_eq_iff (spacing_pos x).ne']; exact h
    rw [roundDouble, if_neg hzero, hdiv, roundEven_intCast, ← h]

/-- The integers up to 2^53 are numbers. -/
theorem roundDouble_natCast {n : ℕ} (h : n ≤ 2 ^ 53) : roundDouble n = n := by
  rcases Nat.eq_zero_or_pos n with rfl | hn
  · simp [roundDouble]
  have hpos : (0 : ℚ) < n := by exact_mod_cast hn
  have hspacing : spacing (n : ℚ) = 2 ^ (Int.log 2 (n : ℚ) - 52) := by rw [spacing, abs_of_pos hpos]
  rcases h.eq_or_lt with heq | hlt
  · have hlog : Int.log 2 (n : ℚ) = 53 := by
      rw [heq, Int.log_natCast, Nat.log_pow one_lt_two]
      rfl
    refine roundDouble_of_multiple (k := 2 ^ 52) ?_
    rw [hspacing, hlog, heq]
    norm_num
  · have hlog : Nat.log 2 n ≤ 52 := Nat.lt_succ_iff.mp (Nat.log_lt_of_lt_pow hn.ne' hlt)
    refine roundDouble_of_multiple (k := n * 2 ^ (52 - Nat.log 2 n)) ?_
    have hexp : (2 : ℚ) ^ (52 - Nat.log 2 n) * 2 ^ ((Nat.log 2 n : ℤ) - 52) = 1 := by
      rw [← zpow_natCast, ← zpow_add₀ two_ne_zero, show ((52 - Nat.log 2 n : ℕ) : ℤ) + ((Nat.log 2 n : ℤ) - 52) = 0 by omega,
        zpow_zero]
    rw [hspacing, Int.log_natCast]
    push_cast
    rw [mul_assoc, hexp, mul_one]

end Rounding

example : mul (div 7 100) 100 = 7 + 1 / 2 ^ 50 := by decide +kernel

end Ecma
