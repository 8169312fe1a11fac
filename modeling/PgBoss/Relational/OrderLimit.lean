import Mathlib

/-!
# Ordered and cut

`ORDER BY ... LIMIT n`: the rows in order, rows of equal rank as they came, and the first `n` of
them. What is cut off never goes strictly before what is kept.
-/

namespace Relational

universe u

variable {Row : Type u} (before : Row → Row → Prop) [DecidableRel before]

/-- The first `n` rows in order. -/
def orderLimit (n : ℕ) (rows : List Row) : List Row := (rows.insertionSort before).take n

variable {before} {n : ℕ} {rows : List Row} {a b : Row}

theorem mem_of_mem_orderLimit (h : a ∈ orderLimit before n rows) : a ∈ rows :=
  (List.perm_insertionSort before rows).mem_iff.mp (List.mem_of_mem_take h)

theorem orderLimit_length : (orderLimit before n rows).length = min n rows.length := by
  simp [orderLimit, List.length_insertionSort]

section Ordered

variable [Std.Total before] [IsTrans Row before]

/-- A row that is cut off does not go before one that is kept. -/
theorem orderLimit_before (ha : a ∈ orderLimit before n rows) (hb : b ∈ rows)
    (hout : b ∉ orderLimit before n rows) : before a b := by
  have hmem : b ∈ (rows.insertionSort before).take n ++ (rows.insertionSort before).drop n := by
    rw [List.take_append_drop]
    exact (List.perm_insertionSort before rows).mem_iff.mpr hb
  have hdrop := (List.mem_append.mp hmem).resolve_left hout
  have hsorted : ((rows.insertionSort before).take n ++ (rows.insertionSort before).drop n).Pairwise before := by
    rw [List.take_append_drop]
    exact List.pairwise_insertionSort before rows
  exact (List.pairwise_append.mp hsorted).2.2 a ha b hdrop

/-- The first row of all goes before every row. -/
theorem before_of_orderLimit_one (ha : (orderLimit before 1 rows).head? = some a) (hb : b ∈ rows) : before a b := by
  rw [orderLimit, List.head?_take, if_neg Nat.one_ne_zero] at ha
  obtain ⟨rest, hrest⟩ := List.head?_eq_some_iff.mp ha
  have hsorted := List.pairwise_insertionSort before rows
  have hmem := (List.perm_insertionSort before rows).mem_iff.mpr hb
  rw [hrest] at hsorted hmem
  rcases List.mem_cons.mp hmem with rfl | hmem
  · exact or_self_iff.mp (Std.Total.total b b)
  · exact (List.pairwise_cons.mp hsorted).1 b hmem

end Ordered

end Relational
