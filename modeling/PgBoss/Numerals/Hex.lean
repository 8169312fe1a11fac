import Mathlib

/-!
# Hexadecimal numerals of a fixed width

A number written with a fixed count of hexadecimal digits, most significant first, leading
zeros kept. Writing is in lower case; reading takes digits of either case.
-/

namespace Numerals

/-- The lower-case digit of `d < 16`. -/
def hexChar (d : ℕ) : Char := if d < 10 then Char.ofNat (48 + d) else Char.ofNat (87 + d)

/-- The value of a digit in either case. -/
def hexDigit (c : Char) : Option ℕ :=
  if 48 ≤ c.toNat ∧ c.toNat ≤ 57 then some (c.toNat - 48)
  else if 97 ≤ c.toNat ∧ c.toNat ≤ 102 then some (c.toNat - 87)
  else if 65 ≤ c.toNat ∧ c.toNat ≤ 70 then some (c.toNat - 55)
  else none

/-- The last `k` digits of `n`. -/
def hexDigits : ℕ → ℕ → List ℕ
  | 0, _ => []
  | k + 1, n => hexDigits k (n / 16) ++ [n % 16]

/-- The number the digits stand for. -/
def hexValue (ds : List ℕ) : ℕ := ds.foldl (fun v d => 16 * v + d) 0

@[simp] theorem hexValue_nil : hexValue [] = 0 := rfl

@[simp] theorem hexValue_concat (ds : List ℕ) (d : ℕ) : hexValue (ds ++ [d]) = 16 * hexValue ds + d := by
  simp [hexValue]

@[simp] theorem hexDigits_length (k n : ℕ) : (hexDigits k n).length = k := by
  induction k generalizing n with
  | zero => rfl
  | succ k ih => simp [hexDigits, ih]

theorem hexDigits_lt {k n d : ℕ} (hd : d ∈ hexDigits k n) : d < 16 := by
  induction k generalizing n with
  | zero => simp [hexDigits] at hd
  | succ k ih =>
    rcases List.mem_append.mp hd with hd | hd
    · exact ih hd
    · obtain rfl := List.mem_singleton.mp hd
      exact Nat.mod_lt _ (by decide)

/-- Reading the digits gives the number back, cut to their count. -/
theorem hexValue_hexDigits (k n : ℕ) : hexValue (hexDigits k n) = n % 16 ^ k := by
  induction k generalizing n with
  | zero => simp [hexDigits, Nat.mod_one]
  | succ k ih =>
    rw [hexDigits, hexValue_concat, ih, Nat.pow_succ', Nat.mod_mul]
    omega

/-- Writing the value gives the digits back. -/
theorem hexDigits_hexValue {ds : List ℕ} (hds : ∀ d ∈ ds, d < 16) : hexDigits ds.length (hexValue ds) = ds := by
  induction ds using List.reverseRecOn with
  | nil => rfl
  | append_singleton ds d ih =>
    have hd : d < 16 := hds d (by simp)
    rw [List.length_append, List.length_singleton, hexDigits, hexValue_concat,
      show (16 * hexValue ds + d) / 16 = hexValue ds by omega, show (16 * hexValue ds + d) % 16 = d by omega,
      ih fun e he => hds e (List.mem_append_left _ he)]

/-- So many digits stand for less than that power of sixteen. -/
theorem hexValue_lt {ds : List ℕ} (hds : ∀ d ∈ ds, d < 16) : hexValue ds < 16 ^ ds.length := by
  rw [← hexDigits_hexValue hds, hexValue_hexDigits, hexDigits_length]
  exact Nat.mod_lt _ (Nat.pow_pos (by decide))

theorem hexDigit_hexChar {d : ℕ} (hd : d < 16) : hexDigit (hexChar d) = some d := by
  interval_cases d <;> decide

/-- A digit of either case, put in lower case, is the digit of its value. -/
theorem toLower_of_hexDigit {c : Char} {d : ℕ} (h : hexDigit c = some d) : d < 16 ∧ c.toLower = hexChar d := by
  obtain ⟨n, rfl, hn⟩ : ∃ n, c = Char.ofNat n ∧ n = c.toNat := ⟨c.toNat, (Char.ofNat_toNat c).symm, rfl⟩
  rw [hexDigit, ← hn] at h
  split_ifs at h with hdigit hlower hupper <;> obtain rfl := Option.some.inj h <;> clear h hn
  · obtain ⟨hlow, hhigh⟩ := hdigit
    interval_cases n <;> decide
  · obtain ⟨hlow, hhigh⟩ := hlower
    interval_cases n <;> decide
  · obtain ⟨hlow, hhigh⟩ := hupper
    interval_cases n <;> decide

/-- The digits written are apart from any character that is no digit. -/
theorem hexChar_ne {d : ℕ} (hd : d < 16) {c : Char} (hc : hexDigit c = none) : hexChar d ≠ c := by
  rintro rfl
  simp [hexDigit_hexChar hd] at hc

end Numerals
