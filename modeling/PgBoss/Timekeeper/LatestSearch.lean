import PgBoss.Timekeeper.Occurrence
import PgBoss.Recurrence.Slots

/-!
# The search for the latest occurrence of a rule

The search steps back from the end of its range. A step that finds nothing grows the next one, and
a step the library will not read is halved, for good. Whatever ranges the library refuses, the
steps tile the range down to its start, so the first occurrence met is the latest one.
-/

namespace PgBoss

open Recurrence Relation

variable {O : Set ℤ} {x : ℤ} {between : Between} {start upper width : ℤ} {ceiling : Option ℤ}

/-- `between()` lists the occurrences strictly between two instants in order, or throws. -/
structure Between.Answers (between : Between) (O : Set ℤ) : Prop where
  mem : ∀ a b l, between a b = .ok l → ∀ o, o ∈ l ↔ o ∈ O ∧ a < o ∧ o < b
  forwards : ∀ a b l, between a b = .ok l → l.Pairwise (· ≤ ·)

/-- The last of a list in order is the latest of its members. -/
theorem getLast_le {l : List ℤ} (hl : l.Pairwise (· ≤ ·)) (hx : l.getLast? = some x) {o : ℤ} (ho : o ∈ l) : o ≤ x := by
  obtain ⟨before, rfl⟩ := List.getLast?_eq_some_iff.mp hx
  rcases List.mem_append.mp ho with ho | ho
  · exact (List.pairwise_append.mp hl).2.2 o ho x (List.mem_singleton_self x)
  · exact (List.mem_singleton.mp ho).le

/-- A step that lists occurrences lists the latest of the whole range last. -/
theorem Between.Answers.latest (h : between.Answers O) {lower : ℤ} {step : List ℤ} (hstart : start ≤ lower)
    (hstep : between lower (upper + 1) = .ok step) (hlast : step.getLast? = some x) : LatestIn O start upper x := by
  have hin := (h.mem _ _ _ hstep x).mp (List.mem_of_getLast? hlast)
  refine ⟨⟨hin.1, by omega, by omega⟩, fun o ho => ?_⟩
  by_cases hstepped : lower < o
  · exact getLast_le (h.forwards _ _ _ hstep) hlast ((h.mem _ _ _ hstep o).mpr ⟨ho.1, hstepped, by have := ho.2.2; omega⟩)
  · omega

/-- A step that lists none leaves the occurrences of the range below it. -/
theorem Between.Answers.below (h : between.Answers O) {lower : ℤ} {step : List ℤ} (hlower : lower ≤ upper)
    (hstep : between lower (upper + 1) = .ok step) (hlast : step.getLast? = none) :
    {o ∈ O | o ∈ Set.Ioc start upper} = {o ∈ O | o ∈ Set.Ioc start lower} := by
  have hnone : ∀ o ∈ O, lower < o → ¬ o ≤ upper := by
    intro o ho hlo hou
    have hin := (h.mem _ _ _ hstep o).mpr ⟨ho, hlo, by omega⟩
    rw [List.getLast?_eq_none_iff.mp hlast] at hin
    contradiction
  ext o
  constructor
  · rintro ⟨ho, hso, hou⟩
    exact ⟨ho, hso, not_lt.mp fun hlo => hnone o ho hlo hou⟩
  · rintro ⟨ho, hso, hol⟩
    exact ⟨ho, hso, hol.trans hlower⟩

/-- A range the search read: no wider than its narrowest step, and refused. -/
def Between.Refuses (between : Between) (start upper : ℤ) (e : String) : Prop :=
  ∃ a b, start ≤ a ∧ a < b ∧ b ≤ upper ∧ b - a ≤ stepMillis ∧ between a (b + 1) = .error e

/-- What a search comes to: the latest occurrence of its range, null where it holds none, or the error of
a step that could not be narrower. -/
def Between.Found (between : Between) (O : Set ℤ) (start upper : ℤ) : Except String (Option ℤ) → Prop
  | .ok (some x) => LatestIn O start upper x
  | .ok none => ∀ o ∈ O, o ∉ Set.Ioc start upper
  | .error e => between.Refuses start upper e

theorem latestSearch_found (h : between.Answers O) (hwidth : 0 < width) (hceiling : ∀ c, ceiling = some c → 0 < c) :
    between.Found O start upper (latestSearch between start upper width ceiling hwidth hceiling) := by
  fun_induction latestSearch between start upper width ceiling hwidth hceiling with
  | case1 upper width ceiling hwidth hceiling hrange lower e herror hfloor =>
    exact ⟨lower, upper, le_max_left _ _, max_lt hrange (by omega), le_rfl, hfloor, herror⟩
  | case2 upper width ceiling hwidth hceiling hrange lower e herror hfloor ih => exact ih
  | case3 upper width ceiling hwidth hceiling hrange lower step hstep occurrence hlast =>
    exact h.latest (le_max_left _ _) hstep hlast
  | case4 upper width ceiling hwidth hceiling hrange lower step hstep hlast ih =>
    have hlower : lower ≤ upper := max_le hrange.le (by omega)
    have hbelow : {o ∈ O | o ∈ Set.Ioc start upper} = {o ∈ O | o ∈ Set.Ioc start lower} := h.below hlower hstep hlast
    revert ih
    generalize latestSearch between start lower (grownWidth width ceiling) ceiling _ hceiling = result
    match result with
    | .ok (some x) => exact fun hfound => by rwa [Between.Found, LatestIn, hbelow]
    | .ok none => exact fun hfound o ho hin => hfound o ho (Set.ext_iff.mp hbelow o |>.mp ⟨ho, hin⟩).2
    | .error e =>
      rintro ⟨a, b, ha, hab, hb, hnarrow, herror⟩
      exact ⟨a, b, ha, hab, hb.trans hlower, hnarrow, herror⟩
  | case5 upper width ceiling hwidth hceiling hrange =>
    intro o _ hin
    have hle := hin.2
    have hlt := hin.1
    omega

section Iterations

/-- The variables of the loop. -/
structure SearchState where
  upper : ℤ
  width : ℤ
  ceiling : Option ℤ

/-- One pass of the loop: the variables it goes on with, or what the call ends with. -/
def searchIteration (between : Between) (start : ℤ) (s : SearchState) :
    SearchState ⊕ Except String (Option ℤ) :=
  if start < s.upper then
    let lower := max start (s.upper - s.width)
    match between lower (s.upper + 1) with
    | .error e =>
      if s.upper - lower ≤ stepMillis then .inr (.error e)
      else .inl { s with width := halvedWidth (s.upper - lower), ceiling := some (halvedWidth (s.upper - lower)) }
    | .ok step =>
      match step.getLast? with
      | some occurrence => .inr (.ok (some occurrence))
      | none => .inl { s with upper := lower, width := grownWidth s.width s.ceiling }
  else .inr (.ok none)

/-- The loop goes on. -/
def Iterates (between : Between) (start : ℤ) (s s' : SearchState) : Prop := searchIteration between start s = .inl s'

/-- The loop ends, with what the search gives. -/
theorem latestSearch_iterates (hwidth : 0 < width) (hceiling : ∀ c, ceiling = some c → 0 < c) :
    ∃ last, ReflTransGen (Iterates between start) ⟨upper, width, ceiling⟩ last ∧
      searchIteration between start last = .inr (latestSearch between start upper width ceiling hwidth hceiling) := by
  fun_induction latestSearch between start upper width ceiling hwidth hceiling with
  | case1 upper width ceiling hwidth hceiling hrange lower e herror hfloor =>
    exact ⟨_, .refl, by simp only [searchIteration, if_pos hrange, lower, herror, if_pos hfloor]⟩
  | case2 upper width ceiling hwidth hceiling hrange lower e herror hfloor ih =>
    obtain ⟨last, hrun, hlast⟩ := ih
    refine ⟨last, .head ?_ hrun, hlast⟩
    simp only [Iterates, searchIteration, if_pos hrange, herror, if_neg hfloor, lower]
  | case3 upper width ceiling hwidth hceiling hrange lower step hstep occurrence hlast =>
    exact ⟨_, .refl, by simp only [searchIteration, if_pos hrange, hstep, hlast, lower]⟩
  | case4 upper width ceiling hwidth hceiling hrange lower step hstep hnone ih =>
    obtain ⟨last, hrun, hlast⟩ := ih
    refine ⟨last, .head ?_ hrun, hlast⟩
    simp only [Iterates, searchIteration, if_pos hrange, hstep, hnone, lower]
  | case5 upper width ceiling hwidth hceiling hrange =>
    exact ⟨_, .refl, by simp only [searchIteration, if_neg hrange]⟩

end Iterations

/-- The loop ends, whatever ranges the library refuses, with the latest occurrence of the range, with null
where there is none, or with the error of a step of an hour at most. -/
theorem latestOccurrence_found (h : between.Answers O) (after until_ : ℤ) :
    (∃ last, ReflTransGen (Iterates between after) ⟨until_, stepMillis, none⟩ last ∧
      searchIteration between after last = .inr (latestRuleOccurrenceBefore between after until_)) ∧
      between.Found O after until_ (latestRuleOccurrenceBefore between after until_) :=
  ⟨latestSearch_iterates _ _, latestSearch_found h _ _⟩

section Once

/-- A rule that recurs once, read by a library that refuses ranges wider than ninety minutes. -/
def onceBetween : Between := fun a b =>
  if 5400000 < b - a then .error "Maximum iterations" else .ok (if a < 0 ∧ 0 < b then [0] else [])

theorem onceBetween_answers : onceBetween.Answers {0} where
  mem a b l hl o := by
    simp only [onceBetween] at hl
    split at hl
    · contradiction
    · obtain rfl := Except.ok.inj hl
      split <;> simp_all
  forwards a b l hl := by
    simp only [onceBetween] at hl
    split at hl
    · contradiction
    · obtain rfl := Except.ok.inj hl
      split <;> simp

/-- Searched for from ten hours before to five hours after, the occurrence is found: steps over an hour are
refused on the way. -/
theorem latestOccurrence_found_once : latestRuleOccurrenceBefore onceBetween (-36000000) 18000000 = .ok (some 0) := by
  obtain ⟨-, hfound⟩ := latestOccurrence_found onceBetween_answers (-36000000) 18000000
  generalize latestRuleOccurrenceBefore onceBetween (-36000000) 18000000 = result at hfound
  match result, hfound with
  | .ok (some x), hlatest => exact congrArg _ (congrArg _ hlatest.1.1)
  | .ok none, hnone => exact absurd (by decide) (hnone 0 rfl)
  | .error e, ⟨a, b, _, _, _, hnarrow, herror⟩ =>
    simp only [stepMillis] at hnarrow
    rw [onceBetween, if_neg (by omega)] at herror
    contradiction

end Once

end PgBoss
