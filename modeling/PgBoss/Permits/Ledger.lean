import Mathlib

/-!
# Counted permits

A counter for each key and holders that come one after another, each with some permits of every key. The
counter is right when it is the sum of what the holders have.
-/

namespace Permits

variable {κ : Type*} {n i : ℕ} {held held' : ℕ → κ → ℕ} {count count' : κ → ℕ} {k : κ}

/-- Every counted permit is one of the first `n` holders'. -/
def Balanced (n : ℕ) (held : ℕ → κ → ℕ) (count : κ → ℕ) : Prop :=
  ∀ k, count k = ∑ i ∈ Finset.range n, held i k

theorem Balanced.zero : Balanced 0 held fun _ : κ => 0 := fun _ => rfl

/-- A new holder takes its permits. -/
theorem Balanced.take (h : Balanced n held count) (hkept : ∀ i < n, held' i = held i)
    (hcount : ∀ k, count' k = count k + held' n k) : Balanced (n + 1) held' count' := by
  intro k
  have hsum : ∑ i ∈ Finset.range n, held' i k = ∑ i ∈ Finset.range n, held i k :=
    Finset.sum_congr rfl fun i hi => by rw [hkept i (Finset.mem_range.mp hi)]
  rw [Finset.sum_range_succ, hsum, hcount, h k]

/-- A holder gives all it has back. -/
theorem Balanced.release (h : Balanced n held count) (hi : i < n) (hkept : ∀ j, j ≠ i → held' j = held j)
    (hgone : ∀ k, held' i k = 0) (hcount : ∀ k, count' k = count k - held i k) : Balanced n held' count' := by
  intro k
  have hmem : i ∈ Finset.range n := Finset.mem_range.mpr hi
  have hold : ∑ j ∈ Finset.range n, held j k = held i k + ∑ j ∈ (Finset.range n).erase i, held j k :=
    (Finset.add_sum_erase _ (fun j => held j k) hmem).symm
  have hnew : ∑ j ∈ Finset.range n, held' j k = held' i k + ∑ j ∈ (Finset.range n).erase i, held' j k :=
    (Finset.add_sum_erase _ (fun j => held' j k) hmem).symm
  have hrest : ∑ j ∈ (Finset.range n).erase i, held' j k = ∑ j ∈ (Finset.range n).erase i, held j k :=
    Finset.sum_congr rfl fun j hj => by rw [hkept j (Finset.ne_of_mem_erase hj)]
  rw [hcount, h k, hold, hnew, hrest, hgone k]
  omega

/-- Nobody takes or gives back. -/
theorem Balanced.of_eq (h : Balanced n held count) (hkept : ∀ i < n, held' i = held i)
    (hcount : ∀ k, count' k = count k) : Balanced n held' count' := by
  intro k
  rw [hcount, h k]
  exact Finset.sum_congr rfl fun i hi => by rw [hkept i (Finset.mem_range.mp hi)]

/-- What the holders use of their permits is within the count. -/
theorem Balanced.sum_le (h : Balanced n held count) (used : ℕ → κ → ℕ) (hused : ∀ i < n, used i k ≤ held i k) :
    ∑ i ∈ Finset.range n, used i k ≤ count k := by
  rw [h k]
  exact Finset.sum_le_sum fun i hi => hused i (Finset.mem_range.mp hi)

/-- Nothing is counted of a key that no holder has. -/
theorem Balanced.eq_zero (h : Balanced n held count) (hnone : ∀ i < n, held i k = 0) : count k = 0 := by
  rw [h k]
  exact Finset.sum_eq_zero fun i hi => hnone i (Finset.mem_range.mp hi)

end Permits
