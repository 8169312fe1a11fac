import PgBoss.Ecma.Doubles

/-!
# Percentiles of a latency histogram

A histogram counts jobs by slot, each slot √2 as wide as the one before. A percentile is read in the slot that the jobs
counted so far reach a target in, which is a product of numbers of double precision. The slot read is that of the exact
order statistic unless that product and the exact rank lie on two sides of the end of a slot. A time is kept as the
power of √2 it is of the shortest one: scripts leave the last digits of `**` open, and these powers are exact.
-/

namespace PgBoss

open Ecma

/-- `total`. -/
def total (bins : List ℚ) : ℚ := bins.foldl add 0

/-- `addBins`. -/
def addBins : Option (List ℚ) → Option (List ℚ) → Option (List ℚ)
  | a, none => a
  | none, some b => some b
  | some a, some b => some (a.mapIdx fun i n => add n (b[i]?.getD 0))

/-- Where a percentile is read: in slot 0, in the last slot, or within another, so far into it. -/
inductive LatencyReading
  | first
  | last (k : ℕ)
  | within (k : ℕ) (position : ℚ)
  deriving DecidableEq, Repr

/-- The slot of a reading. -/
def LatencyReading.slot : LatencyReading → ℕ
  | first => 0
  | last k => k
  | within k _ => k

/-- The loop over the slots: how many it passes, and the jobs seen in them. -/
def slotWalk (target : ℚ) : ℚ → List ℚ → ℕ × ℚ
  | seen, bin :: next :: bins =>
    if 0 < bin ∧ target ≤ add seen bin then (0, seen)
    else ((slotWalk target (add seen bin) (next :: bins)).1 + 1, (slotWalk target (add seen bin) (next :: bins)).2)
  | seen, _ => (0, seen)

/-- `p / 100 * n`. -/
def percentileTarget (p n : ℚ) : ℚ := mul (div p 100) n

/-- `percentile`, up to the powers of √2. -/
def percentileReading (bins : Option (List ℚ)) (p : ℚ) : Except String (Option LatencyReading) :=
  if 1 ≤ p ∧ p ≤ 100 then
    match bins with
    | none => .ok none
    | some bins =>
      if total bins = 0 then .ok none
      else
        let target := percentileTarget p (total bins)
        let (k, seen) := slotWalk target 0 bins
        if k = 0 then .ok (some .first)
        else if k = bins.length - 1 then .ok (some (.last k))
        else .ok (some (.within k (div (sub target seen) (bins[k]?.getD 0))))
  else .error "percentile: p must be a percent from 1 to 100, such as 95"

/-- The lower edge of a slot but slot 0, which is the upper edge of the one before it: `LATENCY_MIN_SECONDS` by √2 to
this power. -/
def slotEdge (k : ℕ) : ℚ := (k - 1 : ℕ)

/-- The time of a reading, as the power of √2 that `LATENCY_MIN_SECONDS` is taken by. -/
def LatencyReading.time : LatencyReading → ℚ
  | first => 0
  | last k => slotEdge k
  | within k position => slotEdge k + position

/-- `percentile`. -/
def percentile (bins : Option (List ℚ)) (p : ℚ) : Except String (Option ℚ) :=
  (percentileReading bins p).map fun reading => reading.map LatencyReading.time

/-- A histogram: counts of jobs, as many as numbers count one by one. -/
structure Histogram where
  counts : List ℕ
  safe : counts.sum ≤ 2 ^ 53

/-- The numbers of a histogram. -/
def Histogram.bins (h : Histogram) : List ℚ := h.counts.map Nat.cast

/-- The number of jobs in the slots before a slot. -/
def Histogram.before (h : Histogram) (k : ℕ) : ℕ := (h.counts.take k).sum

section Statistics

/-- The slots of the recorded jobs, from slot `k` on. -/
def recordedFrom : ℕ → List ℕ → List ℕ
  | _, [] => []
  | k, n :: counts => List.replicate n k ++ recordedFrom (k + 1) counts

/-- The slots of the recorded jobs. -/
def Histogram.recorded (h : Histogram) : Multiset ℕ := ↑(recordedFrom 0 h.counts)

/-- The `r`-th smallest of the slots. -/
def orderStatistic (slots : Multiset ℕ) (r : ℕ) : Option ℕ := (slots.sort (· ≤ ·))[r - 1]?

theorem le_of_mem_recordedFrom {k slot : ℕ} {counts : List ℕ} (h : slot ∈ recordedFrom k counts) : k ≤ slot := by
  induction counts generalizing k with
  | nil => cases h
  | cons n counts ih =>
    rcases List.mem_append.mp h with h | h
    · rw [List.eq_of_mem_replicate h]
    · exact (Nat.le_succ k).trans (ih h)

theorem recordedFrom_sorted (k : ℕ) (counts : List ℕ) : (recordedFrom k counts).Pairwise (· ≤ ·) := by
  induction counts generalizing k with
  | nil => exact .nil
  | cons n counts ih =>
    refine List.pairwise_append.mpr ⟨List.pairwise_replicate.mpr (.inr le_rfl), ih (k + 1), fun a ha b hb => ?_⟩
    rw [List.eq_of_mem_replicate ha]
    exact (Nat.le_succ k).trans (le_of_mem_recordedFrom hb)

theorem recordedFrom_length (k : ℕ) (counts : List ℕ) : (recordedFrom k counts).length = counts.sum := by
  induction counts generalizing k with
  | nil => rfl
  | cons n counts ih => rw [recordedFrom, List.length_append, List.length_replicate, ih, List.sum_cons]

/-- The job at a place lies in the slot whose counts reach over the place. -/
theorem recordedFrom_getElem {k slot i : ℕ} {counts : List ℕ} :
    (recordedFrom k counts)[i]? = some (k + slot) ↔ (counts.take slot).sum ≤ i ∧ i < (counts.take (slot + 1)).sum := by
  induction counts generalizing k slot i with
  | nil => simp [recordedFrom]
  | cons n counts ih =>
    rw [recordedFrom]
    by_cases hi : i < n
    · rw [List.getElem?_append_left (by rwa [List.length_replicate]), List.getElem?_replicate_of_lt hi]
      cases slot with
      | zero => simpa using hi
      | succ slot =>
        rw [List.take_succ_cons, List.sum_cons]
        constructor
        · intro h
          have hk := Option.some.inj h
          omega
        · rintro ⟨hle, -⟩
          omega
    · rw [List.getElem?_append_right (by rw [List.length_replicate]; omega), List.length_replicate]
      cases slot with
      | zero =>
        have hnone : (recordedFrom (k + 1) counts)[i - n]? ≠ some (k + 0) := by
          intro h
          have hle := le_of_mem_recordedFrom (List.mem_of_getElem? h)
          omega
        simp only [hnone, false_iff, List.take_zero, List.take_succ_cons, List.sum_cons, List.sum_nil]
        omega
      | succ slot =>
        have hshift : k + (slot + 1) = k + 1 + slot := by omega
        rw [hshift, ih, List.take_succ_cons, List.take_succ_cons, List.sum_cons, List.sum_cons]
        omega

variable {h : Histogram}

theorem recorded_card (h : Histogram) : h.recorded.card = h.counts.sum := recordedFrom_length 0 h.counts

/-- The slot of the `r`-th smallest job. -/
theorem orderStatistic_recorded {r slot : ℕ} (hr : 0 < r) :
    orderStatistic h.recorded r = some slot ↔ h.before slot < r ∧ r ≤ h.before (slot + 1) := by
  have hsort : h.recorded.sort (· ≤ ·) = recordedFrom 0 h.counts := by
    rw [Histogram.recorded, Multiset.coe_sort]
    exact List.mergeSort_of_pairwise ((recordedFrom_sorted 0 h.counts).imp fun hle => decide_eq_true hle)
  have hplace := @recordedFrom_getElem 0 slot (r - 1) h.counts
  rw [Nat.zero_add] at hplace
  rw [orderStatistic, hsort, hplace, Histogram.before, Histogram.before]
  omega

end Statistics

section Walk

variable {h : Histogram} {target : ℚ}

theorem before_mono (h : Histogram) : Monotone h.before := by
  intro j k hjk
  exact (List.take_sublist_take_left hjk).sum_le_sum fun _ _ => Nat.zero_le _

theorem before_le (h : Histogram) (k : ℕ) : h.before k ≤ h.counts.sum :=
  (List.take_sublist k h.counts).sum_le_sum fun _ _ => Nat.zero_le _

/-- Counts are added without rounding. -/
theorem add_natCast {m n : ℕ} (hsafe : m + n ≤ 2 ^ 53) : add (m : ℚ) (n : ℚ) = ((m + n : ℕ) : ℚ) := by
  rw [add, ← Nat.cast_add, roundDouble_natCast hsafe]

theorem foldl_add {m : ℕ} {counts : List ℕ} (hsafe : m + counts.sum ≤ 2 ^ 53) :
    (counts.map Nat.cast).foldl add (m : ℚ) = ((m + counts.sum : ℕ) : ℚ) := by
  induction counts generalizing m with
  | nil => simp
  | cons n counts ih =>
    rw [List.sum_cons] at hsafe
    rw [List.map_cons, List.foldl_cons, add_natCast (by omega), ih (by omega), List.sum_cons, Nat.add_assoc]

theorem total_bins (h : Histogram) : total h.bins = h.counts.sum := by
  have hsum := @foldl_add 0 h.counts (by rw [Nat.zero_add]; exact h.safe)
  rw [Nat.zero_add, Nat.cast_zero] at hsum
  exact hsum

/-- The walk passes the slots that end before the target, and stops behind them or in the last. -/
theorem slotWalk_counts {m : ℕ} {counts : List ℕ} (hsafe : m + counts.sum ≤ 2 ^ 53) (hm : (m : ℚ) < target) (hne : counts ≠ []) :
    ∃ k < counts.length, slotWalk target m (counts.map Nat.cast) = (k, ((m + (counts.take k).sum : ℕ) : ℚ)) ∧
      (∀ j ≤ k, ((m + (counts.take j).sum : ℕ) : ℚ) < target) ∧
      (k + 1 < counts.length → target ≤ ((m + (counts.take (k + 1)).sum : ℕ) : ℚ)) := by
  induction counts generalizing m with
  | nil => exact absurd rfl hne
  | cons n counts ih =>
    have hstay : ∀ j ≤ 0, ((m + ((n :: counts).take j).sum : ℕ) : ℚ) < target := by
      intro j hj
      rw [Nat.le_zero.mp hj]
      simpa using hm
    cases counts with
    | nil => exact ⟨0, by simp, by simp [slotWalk], hstay, by simp⟩
    | cons next counts =>
      rw [List.sum_cons] at hsafe
      have hadd : add (m : ℚ) (n : ℚ) = ((m + n : ℕ) : ℚ) := add_natCast (by omega)
      by_cases hstop : target ≤ ((m + n : ℕ) : ℚ)
      · have hpos : (0 : ℚ) < n := by
          push_cast at hstop
          linarith
        refine ⟨0, by simp, ?_, hstay, fun _ => by simpa using hstop⟩
        rw [List.map_cons, List.map_cons, slotWalk, hadd, if_pos ⟨hpos, hstop⟩]
        simp
      · obtain ⟨k, hk, hwalk, hpassed, hend⟩ := ih (m := m + n) (by omega) (not_le.mp hstop) (List.cons_ne_nil _ _)
        have hsum : ∀ j, m + ((n :: next :: counts).take (j + 1)).sum = m + n + ((next :: counts).take j).sum := by
          intro j
          rw [List.take_succ_cons, List.sum_cons, Nat.add_assoc]
        refine ⟨k + 1, by simpa using hk, ?_, ?_, fun hlt => ?_⟩
        · rw [List.map_cons, List.map_cons, slotWalk, hadd, if_neg fun hboth => hstop hboth.2, ← List.map_cons, hwalk, hsum]
        · intro j hj
          cases j with
          | zero => simpa using hm
          | succ j =>
            rw [hsum]
            exact hpassed j (by omega)
        · rw [hsum]
          exact hend (by simpa using hlt)

end Walk

section Target

variable {p q n : ℕ}

theorem div_hundred_pos (hp : 1 ≤ p) : 0 < div (p : ℚ) 100 :=
  roundDouble_pos (div_pos (by exact_mod_cast hp) (by norm_num))

theorem percentileTarget_pos (hp : 1 ≤ p) (hn : 0 < n) : 0 < percentileTarget p n :=
  roundDouble_pos (mul_pos (div_hundred_pos hp) (by exact_mod_cast hn))

theorem percentileTarget_mono (hp : 1 ≤ p) (hpq : p ≤ q) : percentileTarget p n ≤ percentileTarget q n := by
  have hratio : (p : ℚ) / 100 ≤ q / 100 := div_le_div_of_nonneg_right (by exact_mod_cast hpq) (by norm_num)
  have hdiv : div (p : ℚ) 100 ≤ div (q : ℚ) 100 := roundDouble_mono (by positivity) hratio
  exact roundDouble_mono (mul_nonneg (div_hundred_pos hp).le n.cast_nonneg) (mul_le_mul_of_nonneg_right hdiv n.cast_nonneg)

end Target

section Reading

variable {h : Histogram} {p q k : ℕ}

/-- What is read in slot `k`, which the walk for `p` stops in. -/
def Histogram.readingIn (h : Histogram) (p k : ℕ) : LatencyReading :=
  if k = 0 then .first
  else if k = h.counts.length - 1 then .last k
  else .within k (div (sub (percentileTarget p h.counts.sum) (h.before k)) (h.counts[k]?.getD 0 : ℕ))

/-- The walk for `p` stops in slot `k`: the slots before end before the target, and this one does not, unless it is the
last. -/
structure Histogram.StopsIn (h : Histogram) (p k : ℕ) : Prop where
  lt : k < h.counts.length
  passed : ∀ j ≤ k, (h.before j : ℚ) < percentileTarget p h.counts.sum
  reached : k + 1 < h.counts.length → percentileTarget p h.counts.sum ≤ h.before (k + 1)

theorem readingIn_slot (h : Histogram) (p k : ℕ) : (h.readingIn p k).slot = k := by
  unfold Histogram.readingIn
  split_ifs with hfirst
  · exact hfirst.symm
  · rfl
  · rfl

theorem percentileReading_bins (hn : 0 < h.counts.sum) (hp : 1 ≤ p) (hle : p ≤ 100) :
    ∃ k, h.StopsIn p k ∧ percentileReading (some h.bins) p = .ok (some (h.readingIn p k)) := by
  have hne : h.counts ≠ [] := by
    intro hnil
    rw [hnil, List.sum_nil] at hn
    exact absurd hn (lt_irrefl 0)
  have htarget := percentileTarget_pos hp hn
  obtain ⟨k, hk, hwalk, hpassed, hreached⟩ := @slotWalk_counts _ 0 h.counts (by rw [Nat.zero_add]; exact h.safe)
    (by rw [Nat.cast_zero]; exact htarget) hne
  simp only [Nat.zero_add] at hwalk hpassed hreached
  refine ⟨k, ⟨hk, hpassed, hreached⟩, ?_⟩
  have hrange : 1 ≤ (p : ℚ) ∧ (p : ℚ) ≤ 100 := ⟨by exact_mod_cast hp, by exact_mod_cast hle⟩
  have htotal : (h.counts.sum : ℚ) ≠ 0 := by exact_mod_cast hn.ne'
  have hlength : h.bins.length = h.counts.length := List.length_map _
  have hbin : h.bins[k]?.getD 0 = ((h.counts[k]?.getD 0 : ℕ) : ℚ) := by
    rw [Histogram.bins, List.getElem?_map]
    cases h.counts[k]? <;> simp
  rw [Nat.cast_zero] at hwalk
  have hwalk' : slotWalk (percentileTarget p h.counts.sum) 0 h.bins = (k, (h.before k : ℚ)) := hwalk
  simp only [percentileReading, if_pos hrange, total_bins, if_neg htotal, hwalk', hlength, hbin, Histogram.readingIn]
  split_ifs <;> rfl

theorem percentile_of_reading {reading : LatencyReading} (hread : percentileReading (some h.bins) p = .ok (some reading)) :
    percentile (some h.bins) p = .ok (some reading.time) := by
  rw [percentile, hread]
  rfl

/-- A later percentile is not read in an earlier slot. -/
theorem Histogram.StopsIn.mono {j : ℕ} (hp : 1 ≤ p) (hpq : p ≤ q) (hj : h.StopsIn p j) (hk : h.StopsIn q k) : j ≤ k := by
  by_contra hlt
  have hend := hk.reached (by have := hj.lt; omega)
  have hpassed := hj.passed (k + 1) (by omega)
  have hmono := percentileTarget_mono (n := h.counts.sum) hp hpq
  linarith

/-- The count of a slot between. -/
theorem before_succ (hk : k < h.counts.length) : h.before (k + 1) = h.before k + h.counts[k]?.getD 0 := by
  rw [Histogram.before, Histogram.before, List.sum_take_succ _ _ hk, List.getElem?_eq_getElem hk, Option.getD_some]

/-- What the walk has still to reach in its slot is some of the slot's jobs. -/
theorem Histogram.StopsIn.rest (hk : h.StopsIn p k) (hlast : k + 1 < h.counts.length) :
    0 < percentileTarget p h.counts.sum - h.before k ∧
      percentileTarget p h.counts.sum - h.before k ≤ (h.counts[k]?.getD 0 : ℕ) := by
  have hpassed := hk.passed k le_rfl
  have hreached := hk.reached hlast
  rw [before_succ hk.lt, Nat.cast_add] at hreached
  exact ⟨by linarith, by linarith⟩

theorem sub_le_count (hk : h.StopsIn p k) (hlast : k + 1 < h.counts.length) :
    sub (percentileTarget p h.counts.sum) (h.before k) ≤ (h.counts[k]?.getD 0 : ℕ) := by
  obtain ⟨hpos, hle⟩ := hk.rest hlast
  have hsafe : h.counts[k]?.getD 0 ≤ 2 ^ 53 := by
    have hsum := before_le h (k + 1)
    have := before_succ hk.lt
    have := h.safe
    omega
  rw [← roundDouble_natCast hsafe]
  exact roundDouble_mono hpos.le hle

/-- A reading between the edges is so far into its slot as a part of it. -/
theorem position_mem (hk : h.StopsIn p k) (hlast : k + 1 < h.counts.length) :
    0 ≤ div (sub (percentileTarget p h.counts.sum) (h.before k)) (h.counts[k]?.getD 0 : ℕ) ∧
      div (sub (percentileTarget p h.counts.sum) (h.before k)) (h.counts[k]?.getD 0 : ℕ) ≤ 1 := by
  have hsub := (roundDouble_pos (hk.rest hlast).1).le
  have hratio : (0 : ℚ) ≤ sub (percentileTarget p h.counts.sum) (h.before k) / (h.counts[k]?.getD 0 : ℕ) :=
    div_nonneg hsub (Nat.cast_nonneg _)
  have hzero : roundDouble 0 = 0 := if_pos rfl
  have hone : roundDouble 1 = 1 := by simpa using roundDouble_natCast (n := 1) (by norm_num)
  constructor
  · rw [← hzero]
    exact roundDouble_mono le_rfl hratio
  · rw [← hone]
    exact roundDouble_mono hratio (div_le_one_of_le₀ (sub_le_count hk hlast) (Nat.cast_nonneg _))

/-- Within one slot, a later percentile is read further in. -/
theorem position_mono (hp : 1 ≤ p) (hpq : p ≤ q) (hk : h.StopsIn p k) (hlast : k + 1 < h.counts.length) :
    div (sub (percentileTarget p h.counts.sum) (h.before k)) (h.counts[k]?.getD 0 : ℕ) ≤
      div (sub (percentileTarget q h.counts.sum) (h.before k)) (h.counts[k]?.getD 0 : ℕ) := by
  have hsub : sub (percentileTarget p h.counts.sum) (h.before k) ≤ sub (percentileTarget q h.counts.sum) (h.before k) :=
    roundDouble_mono (hk.rest hlast).1.le (sub_le_sub_right (percentileTarget_mono hp hpq) _)
  exact roundDouble_mono (div_nonneg (roundDouble_pos (hk.rest hlast).1).le (Nat.cast_nonneg _))
    (div_le_div_of_nonneg_right hsub (Nat.cast_nonneg _))

end Reading

section Times

variable {h : Histogram} {p q j k : ℕ}

/-- A time lies within the bounds of a slot: slot 0 has only an upper edge, and the last slot only a lower one. -/
def WithinSlot (slots k : ℕ) (time : ℚ) : Prop :=
  (0 < k → slotEdge k ≤ time) ∧ (k + 1 < slots → time ≤ slotEdge (k + 1))

theorem slotEdge_mono (hjk : j ≤ k) : slotEdge j ≤ slotEdge k := by
  have hle : j - 1 ≤ k - 1 := Nat.sub_le_sub_right hjk 1
  unfold slotEdge
  exact_mod_cast hle

theorem slotEdge_succ (hk : 0 < k) : slotEdge (k + 1) = slotEdge k + 1 := by
  obtain ⟨k, rfl⟩ := Nat.exists_eq_succ_of_ne_zero hk.ne'
  rw [slotEdge, slotEdge, Nat.succ_eq_add_one, Nat.add_sub_cancel, Nat.add_sub_cancel, Nat.cast_succ]

/-- What is read in a slot lies within its bounds. -/
theorem readingIn_within (hk : h.StopsIn p k) : WithinSlot h.counts.length k (h.readingIn p k).time := by
  unfold Histogram.readingIn
  split_ifs with hfirst hlast
  · subst hfirst
    exact ⟨fun hpos => absurd hpos (lt_irrefl 0), fun _ => le_rfl⟩
  · exact ⟨fun _ => le_rfl, fun hlt => by omega⟩
  · have hbetween : k + 1 < h.counts.length := by
      have := hk.lt
      omega
    obtain ⟨hzero, hone⟩ := position_mem hk hbetween
    refine ⟨fun _ => le_add_of_nonneg_right hzero, fun _ => ?_⟩
    rw [slotEdge_succ (Nat.pos_of_ne_zero hfirst)]
    exact add_le_add_right hone _

/-- A later percentile is no shorter time. -/
theorem readingIn_mono (hp : 1 ≤ p) (hpq : p ≤ q) (hj : h.StopsIn p j) (hk : h.StopsIn q k) :
    (h.readingIn p j).time ≤ (h.readingIn q k).time := by
  rcases (hj.mono hp hpq hk).lt_or_eq with hlt | rfl
  · calc (h.readingIn p j).time ≤ slotEdge (j + 1) := (readingIn_within hj).2 (by have := hk.lt; omega)
      _ ≤ slotEdge k := slotEdge_mono hlt
      _ ≤ (h.readingIn q k).time := (readingIn_within hk).1 (by omega)
  · unfold Histogram.readingIn
    split_ifs with hfirst hlast
    · exact le_rfl
    · exact le_rfl
    · have hbetween : j + 1 < h.counts.length := by
        have := hj.lt
        omega
      exact add_le_add_right (position_mono hp hpq hj hbetween) _

end Times

section Added

theorem sum_zipWith_add {a b : List ℕ} (hlength : a.length = b.length) : (List.zipWith (· + ·) a b).sum = a.sum + b.sum := by
  induction a generalizing b with
  | nil =>
    obtain rfl := List.length_eq_zero_iff.mp hlength.symm
    rfl
  | cons m a ih =>
    cases b with
    | nil => cases hlength
    | cons n b =>
      rw [List.zipWith_cons_cons, List.sum_cons, ih (Nat.succ.inj hlength), List.sum_cons, List.sum_cons]
      omega

/-- Two histograms of one length, added. -/
def Histogram.added (a b : Histogram) (hlength : a.counts.length = b.counts.length)
    (hsafe : a.counts.sum + b.counts.sum ≤ 2 ^ 53) : Histogram :=
  ⟨List.zipWith (· + ·) a.counts b.counts, (sum_zipWith_add hlength).trans_le hsafe⟩

variable {a b : Histogram} (hlength : a.counts.length = b.counts.length) (hsafe : a.counts.sum + b.counts.sum ≤ 2 ^ 53)

theorem addBins_bins : addBins (some a.bins) (some b.bins) = some (a.added b hlength hsafe).bins := by
  rw [addBins]
  congr 1
  apply List.ext_getElem
  · simp [Histogram.bins, Histogram.added, hlength]
  intro i hi hi'
  have hia : i < a.counts.length := by simpa [Histogram.bins] using hi
  have hib : i < b.counts.length := hlength ▸ hia
  have hle : a.counts[i] + b.counts[i] ≤ 2 ^ 53 := by
    have ha := List.le_sum_of_mem (List.getElem_mem hia)
    have hb := List.le_sum_of_mem (List.getElem_mem hib)
    omega
  simp [Histogram.bins, Histogram.added, hib, add_natCast hle]

theorem count_recordedFrom {k slot : ℕ} {counts : List ℕ} :
    (recordedFrom k counts).count (k + slot) = counts[slot]?.getD 0 := by
  induction counts generalizing k slot with
  | nil => simp [recordedFrom]
  | cons n counts ih =>
    rw [recordedFrom, List.count_append, List.count_replicate]
    cases slot with
    | zero =>
      have hlater : k + 0 ∉ recordedFrom (k + 1) counts := fun hin => by
        have := le_of_mem_recordedFrom hin
        omega
      rw [List.count_eq_zero_of_not_mem hlater]
      simp
    | succ slot =>
      have hshift : k + (slot + 1) = k + 1 + slot := by omega
      have hne : ¬ k = k + 1 + slot := by omega
      rw [hshift, ih]
      simp [hne]

/-- The jobs of added histograms are those of both. -/
theorem recorded_added : (a.added b hlength hsafe).recorded = a.recorded + b.recorded := by
  apply Multiset.ext.mpr
  intro slot
  have hcount : ∀ h : Histogram, h.recorded.count slot = h.counts[slot]?.getD 0 := by
    intro h
    have hfrom := @count_recordedFrom 0 slot h.counts
    rw [Nat.zero_add] at hfrom
    rw [Histogram.recorded, Multiset.coe_count, hfrom]
  rw [Multiset.count_add, hcount, hcount, hcount, Histogram.added, List.getElem?_zipWith]
  by_cases hslot : slot < a.counts.length
  · rw [List.getElem?_eq_getElem hslot, List.getElem?_eq_getElem (hlength ▸ hslot)]
    rfl
  · rw [List.getElem?_eq_none (not_lt.mp hslot), List.getElem?_eq_none (hlength ▸ not_lt.mp hslot)]
    rfl

end Added

section Rank

variable {h : Histogram} {p : ℕ}

/-- The slot a percentile is read in is that of the job whose rank among the jobs is `⌈p * n / 100⌉`. -/
def ReadsOrderStatistic (bins : Option (List ℚ)) (jobs : Multiset ℕ) (p : ℕ) : Prop :=
  ∃ reading, percentileReading bins p = .ok (some reading) ∧
    orderStatistic jobs ⌈(p : ℚ) * jobs.card / 100⌉₊ = some reading.slot

/-- At the end of every slot but the last, `p / 100 * n` is on the side that `p * n / 100` is on without rounding. -/
def Histogram.RankKept (h : Histogram) (p : ℕ) : Prop :=
  ∀ k, k + 1 < h.counts.length →
    (mul (div p 100) h.counts.sum ≤ h.before (k + 1) ↔ (p : ℚ) * h.counts.sum / 100 ≤ h.before (k + 1))

theorem rank_pos (hn : 0 < h.counts.sum) (hp : 1 ≤ p) : 0 < ⌈(p : ℚ) * h.counts.sum / 100⌉₊ := by
  have hn' : (0 : ℚ) < h.counts.sum := by exact_mod_cast hn
  have hp' : (0 : ℚ) < p := by exact_mod_cast hp
  exact Nat.ceil_pos.mpr (by positivity)

theorem rank_le (hle : p ≤ 100) : ⌈(p : ℚ) * h.counts.sum / 100⌉₊ ≤ h.counts.sum := by
  have hp : (p : ℚ) ≤ 100 := by exact_mod_cast hle
  refine Nat.ceil_le.mpr ((div_le_iff₀ (by norm_num)).mpr ?_)
  rw [mul_comm]
  exact mul_le_mul_of_nonneg_left hp (Nat.cast_nonneg _)

/-- The slot the walk stops in holds the job of the exact rank where the rounded product is on its sides. -/
theorem readsOrderStatistic_iff (hn : 0 < h.counts.sum) (hp : 1 ≤ p) (hle : p ≤ 100) :
    ReadsOrderStatistic (some h.bins) h.recorded p ↔ h.RankKept p := by
  obtain ⟨k, hk, hread⟩ := percentileReading_bins hn hp hle
  have hreads : ReadsOrderStatistic (some h.bins) h.recorded p ↔
      h.before k < ⌈(p : ℚ) * h.counts.sum / 100⌉₊ ∧ ⌈(p : ℚ) * h.counts.sum / 100⌉₊ ≤ h.before (k + 1) := by
    rw [← orderStatistic_recorded (rank_pos hn hp), ReadsOrderStatistic, recorded_card, hread]
    constructor
    · rintro ⟨reading, heq, hstat⟩
      cases heq
      rwa [readingIn_slot] at hstat
    · exact fun hstat => ⟨_, rfl, by rwa [readingIn_slot]⟩
  rw [hreads]
  constructor
  · rintro ⟨hlow, hhigh⟩ j hj
    rw [Nat.lt_ceil] at hlow
    rw [Nat.ceil_le] at hhigh
    by_cases hjk : j < k
    · have hend : h.before (j + 1) ≤ h.before k := before_mono h hjk
      have hend' : (h.before (j + 1) : ℚ) ≤ h.before k := by exact_mod_cast hend
      have hpassed := hk.passed k le_rfl
      exact iff_of_false (not_le.mpr (hend'.trans_lt hpassed)) (not_le.mpr (hend'.trans_lt hlow))
    · have hend : h.before (k + 1) ≤ h.before (j + 1) := before_mono h (by omega)
      have hend' : (h.before (k + 1) : ℚ) ≤ h.before (j + 1) := by exact_mod_cast hend
      exact iff_of_true ((hk.reached (by omega)).trans hend') (hhigh.trans hend')
  · intro hkept
    constructor
    · cases k with
      | zero => exact rank_pos hn hp
      | succ k =>
        rw [Nat.lt_ceil]
        exact not_le.mp fun hexact => not_le.mpr (hk.passed (k + 1) le_rfl) ((hkept k hk.lt).mpr hexact)
    · by_cases hlast : k + 1 < h.counts.length
      · exact Nat.ceil_le.mpr ((hkept k hlast).mp (hk.reached hlast))
      · have hall : h.before (k + 1) = h.counts.sum := by
          rw [Histogram.before, List.take_of_length_le (not_lt.mp hlast)]
        rw [hall]
        exact rank_le hle

/-- Of up to 2^44 jobs, the product is nearer to the exact rank than that is to an integer it is not. -/
theorem percentileTarget_near {n : ℕ} (hn : n ≤ 2 ^ 44) (hle : p ≤ 100) :
    |mul (div p 100) n - (p : ℚ) * n / 100| < 1 / 100 := by
  have hn' : (n : ℚ) ≤ 2 ^ 44 := by exact_mod_cast hn
  have hp : (p : ℚ) / 100 ≤ 1 := (div_le_one (by norm_num)).mpr (by exact_mod_cast hle)
  have hratio : |div (p : ℚ) 100 - p / 100| ≤ p / 100 / 2 ^ 53 := roundDouble_near (by positivity)
  have hone : roundDouble 1 = 1 := by simpa using roundDouble_natCast (n := 1) (by norm_num)
  have hdiv : div (p : ℚ) 100 ≤ 1 := by
    rw [← hone]
    exact roundDouble_mono (by positivity) hp
  have hzero : 0 ≤ div (p : ℚ) 100 := roundDouble_nonneg (by positivity)
  have hmul : |mul (div p 100) n - div (p : ℚ) 100 * n| ≤ div (p : ℚ) 100 * n / 2 ^ 53 :=
    roundDouble_near (mul_nonneg hzero n.cast_nonneg)
  have hmul' : div (p : ℚ) 100 * n / 2 ^ 53 ≤ 2 ^ 44 / 2 ^ 53 := by
    refine div_le_div_of_nonneg_right ?_ (by positivity)
    calc div (p : ℚ) 100 * n ≤ 1 * n := mul_le_mul_of_nonneg_right hdiv n.cast_nonneg
      _ ≤ 2 ^ 44 := by rw [one_mul]; exact hn'
  have hscaled : |div (p : ℚ) 100 * n - (p : ℚ) * n / 100| ≤ 2 ^ 44 / 2 ^ 53 := by
    calc |div (p : ℚ) 100 * n - (p : ℚ) * n / 100| = |div (p : ℚ) 100 - p / 100| * n := by
          rw [← abs_of_nonneg (n.cast_nonneg (α := ℚ)), ← abs_mul, abs_of_nonneg (n.cast_nonneg (α := ℚ))]
          congr 1
          ring
      _ ≤ p / 100 / 2 ^ 53 * n := mul_le_mul_of_nonneg_right hratio n.cast_nonneg
      _ ≤ 1 / 2 ^ 53 * 2 ^ 44 :=
          mul_le_mul (div_le_div_of_nonneg_right hp (by positivity)) hn' n.cast_nonneg (by positivity)
      _ = 2 ^ 44 / 2 ^ 53 := by ring
  have htriangle := abs_sub_le (mul (div p 100) n) (div (p : ℚ) 100 * n) ((p : ℚ) * n / 100)
  have hsmall : (2 : ℚ) ^ 44 / 2 ^ 53 + 2 ^ 44 / 2 ^ 53 < 1 / 100 := by norm_num
  linarith

/-- Of up to 2^44 jobs, only a slot that ends at the exact rank is misjudged, where the product is rounded up. -/
theorem rankKept_iff (hn : h.counts.sum ≤ 2 ^ 44) (hle : p ≤ 100) :
    h.RankKept p ↔ ∀ k, k + 1 < h.counts.length → p * h.counts.sum = 100 * h.before (k + 1) →
      mul (div p 100) h.counts.sum ≤ h.before (k + 1) := by
  have hnear := abs_lt.mp (percentileTarget_near (p := p) hn hle)
  constructor
  · intro hkept k hk hexact
    refine (hkept k hk).mpr (le_of_eq ?_)
    rw [div_eq_iff (by norm_num), mul_comm (h.before (k + 1) : ℚ)]
    exact_mod_cast hexact
  · intro hends k hk
    rcases lt_trichotomy (p * h.counts.sum) (100 * h.before (k + 1)) with hlt | heq | hgt
    · have hgap : (p : ℚ) * h.counts.sum + 1 ≤ 100 * h.before (k + 1) := by exact_mod_cast hlt
      exact iff_of_true (by linarith) (by linarith)
    · have hexact : (p : ℚ) * h.counts.sum = 100 * h.before (k + 1) := by exact_mod_cast heq
      exact iff_of_true (hends k hk heq) (by linarith)
    · have hgap : (100 : ℚ) * h.before (k + 1) + 1 ≤ p * h.counts.sum := by exact_mod_cast hgt
      exact iff_of_false (by linarith) (by linarith)

end Rank

end PgBoss
