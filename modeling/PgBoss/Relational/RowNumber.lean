import Mathlib

/-!
# Row numbers

`row_number() OVER (ORDER BY ...)` numbers a row by the rows that go before it. Of rows held latest first, those numbered
before one are the ones behind it, the first is the last held, and the rows after the latest of some kind are those held
ahead of it.
-/

namespace Relational

universe u

variable {Row : Type u} (before : Row → Row → Bool)

/-- The rows that go before one: its number, counted from 0. -/
def rowsBefore (rows : List Row) (r : Row) : ℕ := (rows.filter fun a => before a r).length

/-- Rows held latest first. -/
def LatestFirst (rows : List Row) : Prop := rows.Pairwise fun a b => before b a = true ∧ before a b = false

variable {before} {rows newer older : List Row} {r : Row}

theorem LatestFirst.filter (h : LatestFirst before rows) (p : Row → Bool) : LatestFirst before (rows.filter p) :=
  List.Pairwise.filter p h

/-- A row is numbered by the rows held behind it. -/
theorem rowsBefore_append (h : LatestFirst before (newer ++ r :: older)) (hirrefl : before r r = false) :
    rowsBefore before (newer ++ r :: older) r = older.length := by
  obtain ⟨-, hrest, hcross⟩ := List.pairwise_append.mp h
  have hnewer : newer.filter (fun a => before a r) = [] :=
    List.filter_eq_nil_iff.mpr fun a ha => by simp [(hcross a ha r List.mem_cons_self).2]
  have holder : older.filter (fun a => before a r) = older :=
    List.filter_eq_self.mpr fun b hb => ((List.pairwise_cons.mp hrest).1 b hb).1
  rw [rowsBefore, List.filter_append, hnewer, List.nil_append, List.filter_cons_of_neg (by simp [hirrefl]), holder]

/-- Numbered the latest first, a row is numbered by the rows held ahead. -/
theorem rowsBefore_flip_append (h : LatestFirst before (newer ++ r :: older)) (hirrefl : before r r = false) :
    rowsBefore (fun a b => before b a) (newer ++ r :: older) r = newer.length := by
  obtain ⟨-, hrest, hcross⟩ := List.pairwise_append.mp h
  have hnewer : newer.filter (fun a => before r a) = newer :=
    List.filter_eq_self.mpr fun a ha => (hcross a ha r List.mem_cons_self).1
  have holder : older.filter (fun a => before r a) = [] :=
    List.filter_eq_nil_iff.mpr fun b hb => by simp [((List.pairwise_cons.mp hrest).1 b hb).2]
  rw [rowsBefore, List.filter_append, hnewer, List.filter_cons_of_neg (by simp [hirrefl]), holder, List.append_nil]

/-- The first row is the last held. -/
theorem find?_first (h : LatestFirst before rows) (hirrefl : ∀ r ∈ rows, before r r = false) :
    (rows.find? fun r => rowsBefore before rows r = 0) = rows.getLast? := by
  rcases List.eq_nil_or_concat rows with rfl | ⟨newer, r, rfl⟩
  · rfl
  · rw [List.concat_eq_append] at h hirrefl ⊢
    have hlast : rowsBefore before (newer ++ [r]) r = 0 :=
      rowsBefore_append h (hirrefl r (List.mem_append_right _ List.mem_cons_self))
    have hnewer : ∀ a ∈ newer, ¬ rowsBefore before (newer ++ [r]) a = 0 := by
      intro a ha hzero
      have hnone := List.filter_eq_nil_iff.mp (List.length_eq_zero_iff.mp hzero) r
        (List.mem_append_right _ List.mem_cons_self)
      exact hnone ((List.pairwise_append.mp h).2.2 a ha r List.mem_cons_self).1
    rw [List.find?_append, List.find?_eq_none.mpr (by simpa using hnewer), Option.none_or]
    simp [hlast]

/-- Of rows held latest first by a key, those after the latest of a kind are the ones held ahead of it. -/
theorem filter_after_latest {K : Type*} [LinearOrder K] (key : Row → K) (stops : Row → Bool)
    (h : rows.Pairwise fun a b => key b < key a) :
    rows.filter (fun r => !stops r && ((rows.filter stops).map key).max?.all fun latest => decide (latest < key r)) =
      rows.takeWhile fun r => !stops r := by
  induction rows with
  | nil => rfl
  | cons a rows ih =>
    obtain ⟨hlatest, hrows⟩ := List.pairwise_cons.mp h
    by_cases ha : stops a = true
    · have hmax : (((a :: rows).filter stops).map key).max? = some (key a) := by
        rw [List.max?_eq_some_iff]
        refine ⟨List.mem_map_of_mem (List.mem_filter.mpr ⟨List.mem_cons_self, ha⟩), fun k hk => ?_⟩
        obtain ⟨b, hb, rfl⟩ := List.mem_map.mp hk
        rcases List.mem_cons.mp (List.mem_filter.mp hb).1 with rfl | hb
        · exact le_refl _
        · exact (hlatest b hb).le
      rw [hmax, List.takeWhile_cons_of_neg (by simp [ha])]
      refine List.filter_eq_nil_iff.mpr fun b hb => ?_
      rcases List.mem_cons.mp hb with rfl | hb
      · simp [ha]
      · simp [(hlatest b hb).le]
    · have hfilter : (a :: rows).filter stops = rows.filter stops := List.filter_cons_of_neg ha
      have hall : (((rows.filter stops).map key).max?.all fun latest => decide (latest < key a)) = true := by
        cases hmax : ((rows.filter stops).map key).max? with
        | none => rfl
        | some latest =>
          obtain ⟨b, hb, rfl⟩ := List.mem_map.mp (List.max?_mem hmax)
          simpa using hlatest b (List.mem_filter.mp hb).1
      rw [hfilter, List.takeWhile_cons_of_pos (by simp [ha]), List.filter_cons_of_pos (by simp [ha, hall]), ih hrows]

end Relational
