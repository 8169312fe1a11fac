import Mathlib

/-!
# Buckets between sorted ends

A value is placed among sorted ends by a binary search, which finds how many of them it has reached.
The ends may hold ties: between two equal ones nothing is placed. What is placed between the first end
and the last is the sum of what the buckets in between hold.
-/

namespace Tiling

variable {α : Type*} [LinearOrder α]

/-- The search among the ends from `left` to `right`; each round halves the range. -/
def searchBucket (ends : List α) (x : α) : ℕ → ℕ → ℕ → ℕ
  | 0, left, _ => left
  | fuel + 1, left, right =>
    if left < right then
      let mid := (left + right) / 2
      if ends[mid]?.any fun stop => decide (x < stop) then searchBucket ends x fuel left mid
      else searchBucket ends x fuel (mid + 1) right
    else left

/-- The bucket of a value: how many ends it has reached. -/
def bucket (ends : List α) (x : α) : ℕ := searchBucket ends x ends.length 0 ends.length

variable {ends : List α} {x : α}

/-- The ends a value has reached come first. -/
theorem getElem_le_iff_lt_countP (hsorted : ends.Pairwise (· ≤ ·)) {i : ℕ} (hi : i < ends.length) :
    ends[i] ≤ x ↔ i < ends.countP (· ≤ x) := by
  induction ends generalizing i with
  | nil => cases hi
  | cons a ends ih =>
    obtain ⟨hhead, hrest⟩ := List.pairwise_cons.mp hsorted
    by_cases ha : a ≤ x
    · rw [List.countP_cons_of_pos (by simpa using ha)]
      cases i with
      | zero => simpa using ha
      | succ i =>
        rw [List.getElem_cons_succ, ih hrest (Nat.lt_of_succ_lt_succ hi)]
        exact Nat.succ_lt_succ_iff.symm
    · have hnone : ends.countP (· ≤ x) = 0 := by
        refine List.countP_eq_zero.mpr fun b hb => ?_
        simpa using not_le.mp fun hbx => ha ((hhead b hb).trans hbx)
      rw [List.countP_cons_of_neg (by simpa using ha), hnone]
      cases i with
      | zero => simpa using ha
      | succ i =>
        have hend : i < ends.length := Nat.lt_of_succ_lt_succ hi
        have hmem : ends[i] ∈ ends := List.getElem_mem hend
        simpa using not_le.mp fun hbx => ha ((hhead _ hmem).trans hbx)

/-- The search keeps the number of ends reached between its bounds, and so finds it. -/
theorem searchBucket_eq (hsorted : ends.Pairwise (· ≤ ·)) {fuel left right : ℕ} (hfuel : right - left ≤ fuel)
    (hright : right ≤ ends.length) (hlow : left ≤ ends.countP (· ≤ x)) (hhigh : ends.countP (· ≤ x) ≤ right) :
    searchBucket ends x fuel left right = ends.countP (· ≤ x) := by
  induction fuel generalizing left right with
  | zero =>
    rw [searchBucket]
    omega
  | succ fuel ih =>
    rw [searchBucket]
    split
    case isTrue hlt =>
      have hmid : (left + right) / 2 < ends.length := by omega
      have hreached := getElem_le_iff_lt_countP (x := x) hsorted hmid
      simp only [List.getElem?_eq_getElem hmid, Option.any_some, decide_eq_true_eq]
      split
      case isTrue hbelow =>
        have hnot := mt hreached.mpr (not_le.mpr hbelow)
        exact ih (by omega) (by omega) hlow (by omega)
      case isFalse habove =>
        have hpast := hreached.mp (not_lt.mp habove)
        exact ih (by omega) hright (by omega) hhigh
    case isFalse => omega

theorem bucket_eq_countP (hsorted : ends.Pairwise (· ≤ ·)) : bucket ends x = ends.countP (· ≤ x) :=
  searchBucket_eq hsorted (by omega) (Nat.le_refl _) (Nat.zero_le _) List.countP_le_length

/-- A value is in the bucket past an end when it has reached that end and not the next. -/
theorem bucket_eq_succ_iff (hsorted : ends.Pairwise (· ≤ ·)) {i : ℕ} (hi : i + 1 < ends.length) :
    bucket ends x = i + 1 ↔ ends[i] ≤ x ∧ x < ends[i + 1] := by
  have hlow := getElem_le_iff_lt_countP (x := x) hsorted (Nat.lt_of_succ_lt hi)
  have hhigh : x < ends[i + 1] ↔ ¬i + 1 < ends.countP (· ≤ x) := by
    rw [← getElem_le_iff_lt_countP hsorted hi, not_le]
  rw [bucket_eq_countP hsorted, hlow, hhigh]
  omega

/-- A value is past bucket zero when it has reached the first end. -/
theorem bucket_pos_iff (hsorted : ends.Pairwise (· ≤ ·)) (hne : 0 < ends.length) : 0 < bucket ends x ↔ ends[0] ≤ x := by
  rw [bucket_eq_countP hsorted, getElem_le_iff_lt_countP hsorted hne]

/-- A value is in some bucket between the first end and the last when it lies between them. -/
theorem bucket_between_iff (hsorted : ends.Pairwise (· ≤ ·)) {n : ℕ} (hn : ends.length = n + 1) :
    0 < bucket ends x ∧ bucket ends x ≤ n ↔ ends[0] ≤ x ∧ x < ends[n] := by
  have hlast : n < ends.length := by omega
  have hlow := getElem_le_iff_lt_countP (x := x) hsorted (i := 0) (by omega)
  have hhigh : x < ends[n] ↔ ¬n < ends.countP (· ≤ x) := by
    rw [← getElem_le_iff_lt_countP hsorted hlast, not_le]
  rw [bucket_eq_countP hsorted, hlow, hhigh]
  omega

/-- What the first `n` buckets hold is what lies in one of them. -/
theorem sum_count_buckets {β : Type*} (place : β → ℕ) (l : List β) (n : ℕ) :
    ((List.range n).map fun i => l.countP (place · = i + 1)).sum = l.countP fun b => 0 < place b ∧ place b ≤ n := by
  induction n with
  | zero =>
    symm
    rw [List.range_zero, List.map_nil, List.sum_nil, List.countP_eq_zero]
    intro b _
    simp
    omega
  | succ n ih =>
    have hnext : l.countP (fun b => 0 < place b ∧ place b ≤ n + 1) =
        l.countP (fun b => 0 < place b ∧ place b ≤ n) + l.countP (place · = n + 1) := by
      clear ih
      induction l with
      | nil => rfl
      | cons b l ih =>
        simp only [List.countP_cons, decide_eq_true_eq, ih]
        split_ifs <;> omega
    rw [List.range_succ, List.map_append, List.sum_append, ih, hnext]
    simp

end Tiling
