import PgBoss.Monitor.Placement

/-!
# What a downsampled history conserves

The statement's chain of common table expressions comes to one row for each bucket with a capture: the
aggregate of the captures in it, and sums over the counted rows whose home it is, their histograms slot
by slot. Each counted row has one home, so the sums over what is returned are the sums over the rows.
-/

namespace PgBoss

open Relational

section Slots

/-- The length of the histogram that histograms are added up to. -/
def mergedLength (bs : List Bins) : ℕ := (bs.map fun b => max b.wait.length b.run.length).foldr max 0

/-- Histograms added up slot by slot, a slot that one does not have as 0; none where there is no slot. -/
def mergedBins (bs : List Bins) : Option Bins :=
  if mergedLength bs = 0 then none
  else some
    { wait := (List.range (mergedLength bs)).map fun i => (bs.map fun b => b.wait.getD i 0).sum
      run := (List.range (mergedLength bs)).map fun i => (bs.map fun b => b.run.getD i 0).sum }

theorem lt_mergedLength {bs : List Bins} {i : ℕ} :
    i < mergedLength bs ↔ ∃ b ∈ bs, i < max b.wait.length b.run.length := by
  rw [mergedLength]
  induction bs with
  | nil => simp
  | cons b bs ih => rw [List.map_cons, List.foldr_cons, lt_max_iff, ih]; simp

/-- One of the two histograms of a row, merged slot by slot. -/
structure IsSide (side : Bins → List Int) : Prop where
  le : ∀ b, (side b).length ≤ max b.wait.length b.run.length
  merged : ∀ bs h, mergedBins bs = some h →
    side h = (List.range (mergedLength bs)).map fun i => (bs.map fun b => (side b).getD i 0).sum

theorem IsSide.wait : IsSide Bins.wait where
  le _ := le_max_left _ _
  merged bs h hh := by
    rw [mergedBins] at hh
    split at hh
    · cases hh
    · rw [← Option.some.inj hh]

theorem IsSide.run : IsSide Bins.run where
  le _ := le_max_right _ _
  merged bs h hh := by
    rw [mergedBins] at hh
    split at hh
    · cases hh
    · rw [← Option.some.inj hh]

/-- A slot of the merged histogram, wherever it is. -/
theorem mergedBins_slot {side : Bins → List Int} (hside : IsSide side) (bs : List Bins) (i : ℕ) :
    ((mergedBins bs).elim 0 fun h => (side h).getD i 0) = (bs.map fun b => (side b).getD i 0).sum := by
  have hpast : mergedLength bs ≤ i → (bs.map fun b => (side b).getD i 0).sum = 0 := fun hi => by
    refine List.sum_eq_zero fun x hx => ?_
    obtain ⟨b, hb, rfl⟩ := List.mem_map.mp hx
    have hle : max b.wait.length b.run.length ≤ mergedLength bs := by
      by_contra hlt
      exact lt_irrefl _ (lt_mergedLength.mpr ⟨b, hb, not_le.mp hlt⟩)
    have := hside.le b
    rw [List.getD_eq_getElem?_getD, List.getElem?_eq_none (by omega)]
    rfl
  cases hh : mergedBins bs with
  | none =>
    have hlength : mergedLength bs = 0 := by
      by_contra hne
      rw [mergedBins, if_neg hne] at hh
      cases hh
    exact (hpast (by omega)).symm
  | some h =>
    rw [Option.elim_some, hside.merged bs h hh, List.getD_eq_getElem?_getD]
    by_cases hi : i < mergedLength bs
    · simp [hi]
    · rw [hpast (Nat.not_lt.mp hi), List.getElem?_eq_none (by simpa using hi)]
      rfl

/-- The slots of several histograms, one after another. -/
abbrev slotsOf (bs : List Bins) : List (ℕ × Option Int × Option Int) := bs.flatMap unnest

theorem mem_slotsOf {bs : List Bins} {k : ℕ} : k ∈ (slotsOf bs).map Prod.fst ↔ 1 ≤ k ∧ k ≤ mergedLength bs := by
  have hunnest : ∀ b : Bins, k ∈ (unnest b).map Prod.fst ↔ 1 ≤ k ∧ k - 1 < max b.wait.length b.run.length := fun b => by
    rw [unnest, List.map_map, List.mem_map]
    constructor
    · rintro ⟨i, hi, rfl⟩
      exact ⟨Nat.le_add_left _ _, List.mem_range.mp hi⟩
    · rintro ⟨hk, hlt⟩
      exact ⟨k - 1, List.mem_range.mpr hlt, Nat.sub_add_cancel hk⟩
  rw [slotsOf, List.map_flatMap, List.mem_flatMap]
  simp only [hunnest]
  constructor
  · rintro ⟨b, hb, hk, hlt⟩
    have := lt_mergedLength.mpr ⟨b, hb, hlt⟩
    omega
  · rintro ⟨hk, hle⟩
    obtain ⟨b, hb, hlt⟩ := lt_mergedLength.mp (show k - 1 < mergedLength bs by omega)
    exact ⟨b, hb, hk, hlt⟩

/-- The entry of one slot. -/
theorem unnest_slot (b : Bins) (i : ℕ) : ((unnest b).filter fun u => decide (u.1 = i + 1)) =
    if i < max b.wait.length b.run.length then [(i + 1, b.wait[i]?, b.run[i]?)] else [] := by
  have hrange : ∀ n, ((List.range n).filter fun j => decide (j = i)) = if i < n then [i] else [] := fun n => by
    induction n with
    | zero => rfl
    | succ n ih =>
      rw [List.range_succ, List.filter_append, ih, List.filter_singleton]
      grind
  rw [unnest, List.filter_map]
  have heq : ((fun u : ℕ × Option Int × Option Int => decide (u.1 = i + 1)) ∘ fun j => (j + 1, b.wait[j]?, b.run[j]?)) =
      fun j => decide (j = i) := by
    funext j
    simp
  rw [heq, hrange]
  split <;> rfl

/-- The sum of a slot over several histograms. -/
theorem slotsOf_sum {side : Bins → List Int} {column : ℕ × Option Int × Option Int → Option Int}
    (hcolumn : ∀ b i, column (i + 1, b.wait[i]?, b.run[i]?) = (side b)[i]?)
    (hside : ∀ b, (side b).length ≤ max b.wait.length b.run.length) (bs : List Bins) (i : ℕ) :
    (aggregate (· + ·) (((slotsOf bs).filter fun u => decide (u.1 = i + 1)).map column)).getD 0 =
      (bs.map fun b => (side b).getD i 0).sum := by
  have hone : ∀ b, ((((unnest b).filter fun u => decide (u.1 = i + 1)).map column).map fun a => a.getD 0).sum =
      (side b).getD i 0 := fun b => by
    rw [unnest_slot]
    split
    · simp [hcolumn]
    next hlt =>
      have := hside b
      rw [List.getD_eq_getElem?_getD, List.getElem?_eq_none (by omega)]
      rfl
  rw [aggregate_add_getD]
  induction bs with
  | nil => rfl
  | cons b bs ih =>
    rw [slotsOf, List.flatMap_cons, List.filter_append, List.map_append, List.map_append, List.sum_append, ih, hone,
      List.map_cons, List.sum_cons]

end Slots

section Histograms

variable {gs : List GaugeRow} {cs : List CounterRow} {passes : List PassRow}

/-- The rows of `passes` that go to a bucket. -/
abbrev passesOf (gs : List GaugeRow) (passes : List PassRow) (b : Timestamp) : List PassRow :=
  passes.filter fun pass => decide (homeBucket (gs.map GaugeRow.bucket) pass.counterBucket = some b)

/-- The join of the distinct pairs of buckets to the passes gives each bucket the slots of its passes, each once. -/
theorem slotEntries_bucket (hg : (gs.map GaugeRow.bucket).Nodup) (hc : (cs.map CounterRow.bucket).Nodup)
    (hpasses : ∀ pass ∈ passes, pass.counterBucket ∈ cs.map CounterRow.bucket) (b : Timestamp) :
    (((slotEntries (placed gs cs) passes).filter fun e => decide (e.1 = some b)).map Prod.snd).Perm
      (slotsOf ((passesOf gs passes b).map PassRow.bins)) := by
  let pairs := ((placed gs cs).map fun p => (p.bucket, p.counterBucket)).dedup
  let counterBuckets := (pairs.filter fun x => decide (x.1 = some b)).map Prod.snd
  have hpairs : counterBuckets.Nodup := by
    refine List.Nodup.map_on (fun x hx y hy heq => Prod.ext ?_ heq) ((List.nodup_dedup _).filter _)
    exact (of_decide_eq_true (List.mem_filter.mp hx).2).trans (of_decide_eq_true (List.mem_filter.mp hy).2).symm
  have hentries : ((slotEntries (placed gs cs) passes).filter fun e => decide (e.1 = some b)).map Prod.snd =
      (counterBuckets.flatMap fun k => passes.filter fun pass => decide (some pass.counterBucket = k)).flatMap fun pass =>
        unnest pass.bins := by
    rw [slotEntries, List.filter_flatMap, List.map_flatMap, List.flatMap_assoc, List.flatMap_map, flatMap_filter]
    refine List.flatMap_congr fun x _ => ?_
    obtain ⟨bucket, counterBucket⟩ := x
    by_cases hb : bucket = some b <;>
      simp [hb, List.filter_flatMap, List.map_flatMap, List.filter_map, Function.comp_def]
  have hmem : ∀ pass ∈ passes, some pass.counterBucket ∈ counterBuckets ↔
      homeBucket (gs.map GaugeRow.bucket) pass.counterBucket = some b := fun pass hpass => by
    simp only [counterBuckets, pairs, List.mem_map, List.mem_filter, List.mem_dedup, placed_eq hg hc, decide_eq_true_eq]
    constructor
    · rintro ⟨_, ⟨⟨_, ⟨x, hx, rfl⟩, rfl⟩, hb⟩, hcounter⟩
      obtain ⟨c, hxc, hkey⟩ := Option.map_eq_some_iff.mp hcounter
      have hjoin := (fullJoin_key hc ((joined_perm gs cs).mem_iff.mp hx)).2 c hxc
      rw [← hkey, ← hjoin]
      exact hb
    · intro hhome
      obtain ⟨c, hcs, hkey⟩ := List.mem_map.mp (hpasses pass hpass)
      obtain ⟨x, hx, hxc⟩ := List.mem_filterMap.mp ((fullJoin_right hg).mem_iff.mpr hcs)
      have hjoin := (fullJoin_key hc hx).2 c hxc
      refine ⟨_, ⟨⟨_, ⟨x, (joined_perm gs cs).mem_iff.mpr hx, rfl⟩, rfl⟩, ?_⟩, ?_⟩
      · exact (congrArg (homeBucket (gs.map GaugeRow.bucket)) (hjoin.trans hkey)).trans hhome
      · exact congrArg (Option.map CounterRow.bucket) hxc |>.trans (congrArg some hkey)
  have hbins : slotsOf ((passesOf gs passes b).map PassRow.bins) =
      (passesOf gs passes b).flatMap fun pass => unnest pass.bins := List.flatMap_map _ _ _
  rw [hentries, hbins]
  refine List.Perm.flatMap_right _ ((flatMap_filter_perm _ passes hpairs).trans (List.Perm.of_eq ?_))
  exact List.filter_congr fun pass hpass => decide_eq_decide.mpr (hmem pass hpass)

section OneBucket

variable {ps : List PlacedRow} {b : Timestamp} {bs : List Bins}
  (hentries : (((slotEntries ps passes).filter fun e => decide (e.1 = some b)).map Prod.snd).Perm (slotsOf bs))

include hentries

/-- A slot of a bucket is one of its histograms', and holds their sums. -/
theorem slots_sum {s : SlotRow} (hs : s ∈ slots ps passes) (hb : s.bucket = some b) :
    ∃ i < mergedLength bs, s.slot = i + 1 ∧ s.w = (bs.map fun b => b.wait.getD i 0).sum ∧
      s.r = (bs.map fun b => b.run.getD i 0).sum := by
  obtain ⟨⟨key, group⟩, hgroup, rfl⟩ := List.mem_map.mp hs
  obtain ⟨⟨e, he, hkey⟩, rfl⟩ := mem_groupBy.mp hgroup
  obtain ⟨bucket, slot⟩ := key
  obtain rfl : bucket = some b := hb
  obtain ⟨hebucket, heslot⟩ := Prod.mk.inj hkey
  have hmem : slot ∈ (slotsOf bs).map Prod.fst := by
    rw [← (hentries.map Prod.fst).mem_iff, List.map_map]
    exact List.mem_map.mpr ⟨e, List.mem_filter.mpr ⟨he, decide_eq_true hebucket⟩, heslot⟩
  obtain ⟨hpos, hle⟩ := mem_slotsOf.mp hmem
  obtain ⟨i, rfl⟩ : ∃ i, slot = i + 1 := ⟨slot - 1, (Nat.sub_add_cancel hpos).symm⟩
  have hcolumn : ∀ column : ℕ × Option Int × Option Int → Option Int,
      aggregate (· + ·) (((slotEntries ps passes).filter fun e => decide ((e.1, e.2.1) = (some b, i + 1))).map fun e =>
        column e.2) = aggregate (· + ·) (((slotsOf bs).filter fun u => decide (u.1 = i + 1)).map column) := fun column => by
    rw [← aggregate_perm _ ((hentries.filter _).map column), List.filter_map, List.map_map, List.filter_filter]
    have hfilter : ((slotEntries ps passes).filter fun e => decide ((e.1, e.2.1) = (some b, i + 1))) =
        (slotEntries ps passes).filter fun e => ((fun u => decide (u.1 = i + 1)) ∘ Prod.snd) e && decide (e.1 = some b) :=
      List.filter_congr fun e _ => by simp [Bool.and_comm, Prod.ext_iff]
    rw [hfilter]
    rfl
  refine ⟨i, hle, rfl, ?_, ?_⟩
  · exact (congrArg (fun a => a.getD 0) (hcolumn fun u => u.2.1)).trans
      (slotsOf_sum (fun _ _ => rfl) (fun _ => le_max_left _ _) bs i)
  · exact (congrArg (fun a => a.getD 0) (hcolumn fun u => u.2.2)).trans
      (slotsOf_sum (fun _ _ => rfl) (fun _ => le_max_right _ _) bs i)

/-- The slots of a bucket in their order are those of its merged histogram. -/
theorem slots_ordered : ((((slots ps passes).filter fun s => decide (s.bucket = some b)).mergeSort fun s s' =>
    decide (s.slot ≤ s'.slot)).map SlotRow.slot) = (List.range (mergedLength bs)).map (· + 1) := by
  have hkeys : ((slots ps passes).map fun s => (s.bucket, s.slot)).Nodup := by
    have h := groupBy_keys (fun e => (e.1, e.2.1)) (slotEntries ps passes)
    rw [slots, List.map_map]
    exact h ▸ List.nodup_dedup _
  let group := (slots ps passes).filter fun s => decide (s.bucket = some b)
  have hnodup : (group.map SlotRow.slot).Nodup := by
    refine List.Nodup.map_on (fun s hs s' hs' heq => ?_) (hkeys.of_map.filter _)
    have hb := (of_decide_eq_true (List.mem_filter.mp hs).2).trans (of_decide_eq_true (List.mem_filter.mp hs').2).symm
    exact List.inj_on_of_nodup_map hkeys (List.mem_filter.mp hs).1 (List.mem_filter.mp hs').1 (Prod.ext hb heq)
  have hmem : ∀ k, k ∈ group.map SlotRow.slot ↔ k ∈ (List.range (mergedLength bs)).map (· + 1) := fun k => by
    constructor
    · intro hk
      obtain ⟨s, hs, rfl⟩ := List.mem_map.mp hk
      obtain ⟨i, hi, hslot, -⟩ := slots_sum hentries (List.mem_filter.mp hs).1 (of_decide_eq_true (List.mem_filter.mp hs).2)
      exact hslot ▸ List.mem_map.mpr ⟨i, List.mem_range.mpr hi, rfl⟩
    · intro hk
      obtain ⟨i, hi, rfl⟩ := List.mem_map.mp hk
      have hslot : i + 1 ∈ (slotsOf bs).map Prod.fst :=
        mem_slotsOf.mpr ⟨Nat.le_add_left _ _, List.mem_range.mp hi⟩
      rw [← (hentries.map Prod.fst).mem_iff, List.map_map] at hslot
      obtain ⟨e, he, heslot⟩ := List.mem_map.mp hslot
      obtain ⟨he, hebucket⟩ := List.mem_filter.mp he
      refine List.mem_map.mpr ⟨_, List.mem_filter.mpr ⟨List.mem_map.mpr ⟨_, mem_groupBy.mpr ⟨⟨e, he, rfl⟩, rfl⟩, rfl⟩, hebucket⟩, heslot⟩
  have hsorted : ((group.mergeSort fun s s' => decide (s.slot ≤ s'.slot)).map SlotRow.slot).Pairwise (· ≤ ·) :=
    List.pairwise_map.mpr ((List.pairwise_mergeSort (fun _ _ _ => by simpa using le_trans)
      (fun _ _ => by simpa using le_total _ _) group).imp (by simp))
  refine List.Perm.eq_of_pairwise (fun _ _ _ _ => le_antisymm) hsorted ?_ ?_
  · exact List.pairwise_map.mpr (List.pairwise_lt_range.imp fun h => Nat.succ_le_succ h.le)
  · have hperm := (List.mergeSort_perm group fun s s' => decide (s.slot ≤ s'.slot)).map SlotRow.slot
    refine (List.perm_ext_iff_of_nodup (hperm.nodup_iff.mpr hnodup) ?_).mpr fun k => hperm.mem_iff.trans (hmem k)
    exact List.nodup_range.map fun _ _ h => Nat.succ.inj h

/-- The histogram of a bucket is the merged one. -/
theorem histograms_merged {h : HistogramRow} (hh : h ∈ histograms (slots ps passes)) (hb : h.bucket = some b) :
    mergedBins bs = some h.bins := by
  obtain ⟨⟨bucket, group⟩, hgroup, rfl⟩ := List.mem_map.mp hh
  obtain ⟨⟨s, hs, hkey⟩, rfl⟩ := mem_groupBy.mp hgroup
  obtain rfl : bucket = some b := hb
  obtain ⟨i, hi, -⟩ := slots_sum hentries hs hkey
  have hordered := slots_ordered hentries
  have hside : ∀ (column : SlotRow → Int) (sums : ℕ → Int),
      (∀ s ∈ slots ps passes, s.bucket = some b → ∃ i, s.slot = i + 1 ∧ column s = sums i) →
      ((((slots ps passes).filter fun s => decide (s.bucket = some b)).mergeSort fun s s' =>
        decide (s.slot ≤ s'.slot)).map column) = (List.range (mergedLength bs)).map sums := fun column sums hcolumn => by
    have hslot : ∀ s ∈ ((slots ps passes).filter fun s => decide (s.bucket = some b)).mergeSort fun s s' =>
        decide (s.slot ≤ s'.slot), column s = sums (s.slot - 1) := fun s hs => by
      obtain ⟨hs, hb⟩ := List.mem_filter.mp ((List.mergeSort_perm _ _).mem_iff.mp hs)
      obtain ⟨i, hi, hsum⟩ := hcolumn s hs (of_decide_eq_true hb)
      rw [hsum, hi, Nat.add_sub_cancel]
    rw [List.map_congr_left hslot]
    have h := congrArg (List.map fun k => sums (k - 1)) hordered
    rwa [List.map_map, List.map_map] at h
  rw [mergedBins, if_neg (by omega)]
  refine congrArg some (congrArg₂ Bins.mk (hside _ _ fun s hs hb => ?_).symm (hside _ _ fun s hs hb => ?_).symm)
  · obtain ⟨i, -, hi, hw, -⟩ := slots_sum hentries hs hb
    exact ⟨i, hi, hw⟩
  · obtain ⟨i, -, hi, -, hr⟩ := slots_sum hentries hs hb
    exact ⟨i, hi, hr⟩

/-- A bucket without a histogram has no slot. -/
theorem histograms_none (hnone : ∀ h ∈ histograms (slots ps passes), h.bucket ≠ some b) : mergedBins bs = none := by
  rw [mergedBins, if_pos]
  by_contra hlength
  have hslot : 1 ∈ (slotsOf bs).map Prod.fst := mem_slotsOf.mpr ⟨le_rfl, by omega⟩
  rw [← (hentries.map Prod.fst).mem_iff, List.map_map] at hslot
  obtain ⟨e, he, -⟩ := List.mem_map.mp hslot
  obtain ⟨he, hebucket⟩ := List.mem_filter.mp he
  obtain ⟨s, hs, hb⟩ : ∃ s ∈ slots ps passes, s.bucket = some b :=
    ⟨_, List.mem_map.mpr ⟨_, mem_groupBy.mpr ⟨⟨e, he, rfl⟩, rfl⟩, rfl⟩, of_decide_eq_true hebucket⟩
  exact hnone _ (List.mem_map.mpr ⟨_, mem_groupBy.mpr ⟨⟨s, hs, rfl⟩, rfl⟩, rfl⟩) hb

end OneBucket

/-- The left join gives every folded row its bucket's merged histogram. -/
theorem withHistograms_perm {ps : List PlacedRow} (fs : List FoldedRow) (merged : Timestamp → List Bins)
    (hentries : ∀ f ∈ fs, (((slotEntries ps passes).filter fun e => decide (e.1 = some f.capturedOn)).map Prod.snd).Perm
      (slotsOf (merged f.capturedOn))) :
    (withHistograms fs (histograms (slots ps passes))).Perm
      (fs.map fun f => { f with bins := mergedBins (merged f.capturedOn) }) := by
  have hbuckets : ((histograms (slots ps passes)).map HistogramRow.bucket).Nodup := by
    have h := groupBy_keys SlotRow.bucket (slots ps passes)
    rw [histograms, List.map_map]
    exact h ▸ List.nodup_dedup _
  refine (List.mergeSort_perm _ _).trans (List.Perm.of_eq ?_)
  rw [List.filterMap_flatMap, List.map_eq_flatMap]
  refine List.flatMap_congr fun f hf => ?_
  rcases @joinLeft_cases FoldedRow HistogramRow _ _ (fun f => some f.capturedOn) _ _ hbuckets f with
    ⟨hjoin, hnone⟩ | ⟨h, hh, hkey, hjoin⟩
  · rw [hjoin, histograms_none (hentries f hf) hnone]
    rfl
  · rw [hjoin, histograms_merged (hentries f hf) hh hkey]
    rfl

end Histograms

namespace HistoryQuery

variable (q : HistoryQuery) (rows : List HistoryRow)

/-- The buckets with a capture. -/
def occupied : List Timestamp := ((q.captures rows).map fun r => bucketOf (q.secs rows) r.capturedOn).dedup

theorem occupied_nodup : (q.occupied rows).Nodup := List.nodup_dedup _

/-- The captures in a bucket. -/
def capturesIn (b : Timestamp) : List HistoryRow :=
  (q.captures rows).filter fun r => decide (bucketOf (q.secs rows) r.capturedOn = b)

/-- The counted rows whose home a bucket is. -/
def assigned (b : Timestamp) : List (Timestamp × HistoryRow) :=
  (q.counted rows).filter fun r => decide (homeBucket (q.occupied rows) (bucketOf (q.secs rows) r.1) = some b)

/-- What a bucket is to report. -/
def bucketRow (b : Timestamp) : BucketRow where
  capturedOn := b
  gauge c := statsAgg q.aggregate ((q.capturesIn rows b).map fun r => r.gauge c)
  counter c := Relational.aggregate (· + ·) ((q.assigned rows b).map fun r => r.2.counter c)
  deltaOn := Relational.aggregate max ((q.assigned rows b).map fun r => some r.1)
  readyOldestSeconds := Relational.aggregate max ((q.assigned rows b).map fun r => r.2.readyOldestSeconds)
  bins := mergedBins ((q.assigned rows b).filterMap fun r => r.2.bins)

/-- The rows of `gauges`. -/
abbrev gaugeRows : List GaugeRow := gauges (q.secs rows) q.aggregate (q.captures rows)

/-- The rows of `counters`. -/
abbrev counterRows : List CounterRow := counters (q.secs rows) (q.counted rows)

theorem gaugeRows_bucket : (q.gaugeRows rows).map GaugeRow.bucket = q.occupied rows := by
  rw [occupied, ← groupBy_keys, gaugeRows, gauges, List.map_map]
  rfl

theorem counterRows_bucket : (q.counterRows rows).map CounterRow.bucket =
    ((q.counted rows).map fun r => bucketOf (q.secs rows) r.1).dedup := by
  rw [← groupBy_keys, counterRows, counters, List.map_map]
  rfl

theorem gaugeRows_nodup : ((q.gaugeRows rows).map GaugeRow.bucket).Nodup :=
  q.gaugeRows_bucket rows ▸ List.nodup_dedup _

theorem counterRows_nodup : ((q.counterRows rows).map CounterRow.bucket).Nodup :=
  q.counterRows_bucket rows ▸ List.nodup_dedup _

/-- The one row of `gauges` in a bucket with a capture. -/
theorem gaugeRows_home {b : Timestamp} (hb : b ∈ q.occupied rows) :
    ((q.gaugeRows rows).filter fun g => decide (homeBucket (q.occupied rows) g.bucket = some b)) =
      [⟨b, fun c => statsAgg q.aggregate ((q.capturesIn rows b).map fun r => r.gauge c)⟩] := by
  have hown : ∀ g ∈ q.gaugeRows rows,
      decide (homeBucket (q.occupied rows) g.bucket = some b) = decide (g.bucket = b) := fun g hg => by
    have hmem : g.bucket ∈ q.occupied rows := q.gaugeRows_bucket rows ▸ List.mem_map_of_mem hg
    exact decide_eq_decide.mpr (by rw [homeBucket_own hmem, Option.some_inj])
  rw [List.filter_congr hown, gaugeRows, gauges, List.filter_map]
  exact congrArg (List.map _) (groupBy_filter (List.mem_dedup.mp hb))

/-- Aggregating the rows of `counters` at home in a bucket aggregates the counted rows assigned to it. -/
theorem counterRows_home {α : Type*} (f : α → α → α) [Std.Associative f] [Std.Commutative f]
    (column : Timestamp × HistoryRow → Option α) (field : CounterRow → Option α)
    (hfield : ∀ k group, field (counterRow k group) = Relational.aggregate f (group.map column)) (b : Timestamp) :
    Relational.aggregate f (((q.counterRows rows).filter fun c =>
        decide (homeBucket (q.occupied rows) c.bucket = some b)).map field) =
      Relational.aggregate f ((q.assigned rows b).map column) := by
  rw [assigned, ← aggregate_groupBy f (fun r : Timestamp × HistoryRow => bucketOf (q.secs rows) r.1) (q.counted rows)
    (fun k => decide (homeBucket (q.occupied rows) k = some b)), counterRows, counters, List.filter_map, List.map_map]
  exact congrArg (Relational.aggregate f) (List.map_congr_left fun x _ => hfield x.1 x.2)

/-- The rows placed in a bucket fold to what it is to report. -/
theorem foldedRow_placed {b : Timestamp} (hb : b ∈ q.occupied rows) :
    foldedRow b ((placed (q.gaugeRows rows) (q.counterRows rows)).filter fun p => decide (p.bucket = some b)) =
      (q.bucketRow rows b).toFoldedRow := by
  have hg := q.gaugeRows_nodup rows
  have hc := q.counterRows_nodup rows
  let home : Timestamp → Bool := fun k => decide (homeBucket (q.occupied rows) k = some b)
  have hplaced : ((placed (q.gaugeRows rows) (q.counterRows rows)).filter fun p => decide (p.bucket = some b)) =
      ((joined (q.gaugeRows rows) (q.counterRows rows)).filter fun x => home (joinKey x)).map fun x =>
        placedRow (homeBucket (q.occupied rows) (joinKey x)) x := by
    rw [placed_filter hg hc, q.gaugeRows_bucket rows]
  rw [hplaced, foldedRow, bucketRow]
  simp only [List.map_map, Function.comp_def, placedRow, FoldedRow.mk.injEq, true_and]
  refine ⟨funext fun c => ?_, funext fun c => ?_, ?_, ?_⟩
  · rw [aggregate_gauges max _ hc home, q.gaugeRows_home rows hb, List.map_singleton, aggregate_cons, aggregate_nil,
      Option.merge_none_right]
  · rw [aggregate_counters (fun x y : Int => x + y) hg hc home]
    exact q.counterRows_home rows _ _ _ (fun _ _ => rfl) b
  · rw [aggregate_counters max hg hc home]
    exact q.counterRows_home rows max _ _ (fun _ _ => rfl) b
  · rw [aggregate_counters max hg hc home]
    exact q.counterRows_home rows max _ _ (fun _ _ => rfl) b

/-- The passes that go to a bucket are those of the rows assigned to it. -/
theorem passesOf_bins (b : Timestamp) : (passesOf (q.gaugeRows rows) (passes (q.secs rows) (q.counted rows)) b).map
    PassRow.bins = (q.assigned rows b).filterMap fun r => r.2.bins := by
  rw [passesOf, q.gaugeRows_bucket rows, passes, assigned, ← filterMap_filter_congr (p := fun r =>
    decide (homeBucket (q.occupied rows) (bucketOf (q.secs rows) r.1) = some b)), List.map_filterMap]
  · refine List.filterMap_congr fun r _ => ?_
    cases r.2.bins <;> rfl
  · rintro r - pass hpass
    obtain ⟨_, -, rfl⟩ := Option.map_eq_some_iff.mp hpass
    rfl

/-- The statement reports every bucket with a capture, as it is to be reported. -/
theorem bucketedHistory_perm : (bucketedHistory q rows).Perm ((q.occupied rows).map (q.bucketRow rows)) := by
  have hg := q.gaugeRows_nodup rows
  have hc := q.counterRows_nodup rows
  have hpasses : ∀ pass ∈ passes (q.secs rows) (q.counted rows),
      pass.counterBucket ∈ (q.counterRows rows).map CounterRow.bucket := fun pass hpass => by
    obtain ⟨r, hr, hpass⟩ := List.mem_filterMap.mp hpass
    obtain ⟨_, -, rfl⟩ := Option.map_eq_some_iff.mp hpass
    rw [q.counterRows_bucket rows, List.mem_dedup]
    exact List.mem_map.mpr ⟨r, hr, rfl⟩
  have hbuckets : ((placed (q.gaugeRows rows) (q.counterRows rows)).filterMap PlacedRow.bucket).dedup.Perm
      (q.occupied rows) := by
    refine (List.perm_ext_iff_of_nodup (List.nodup_dedup _) (q.occupied_nodup rows)).mpr fun b => ?_
    rw [List.mem_dedup, mem_placed_bucket hg hc, q.gaugeRows_bucket rows]
  refine (withHistograms_perm _ (fun b => (q.assigned rows b).filterMap fun r => r.2.bins) fun f _ => ?_).trans ?_
  · rw [← q.passesOf_bins rows]
    exact slotEntries_bucket hg hc hpasses f.capturedOn
  · rw [folded_eq, List.map_map]
    refine (hbuckets.map _).trans (List.Perm.of_eq (List.map_congr_left fun b hb => ?_))
    rw [Function.comp_apply, q.foldedRow_placed rows hb]
    rfl

/-- Every counted row is assigned to one bucket. -/
theorem assigned_perm (h : q.captures rows ≠ []) : ((q.occupied rows).flatMap (q.assigned rows)).Perm (q.counted rows) := by
  have hocc : q.occupied rows ≠ [] := fun hnil => h (List.map_eq_nil_iff.mp (List.dedup_eq_nil _ |>.mp hnil))
  have hperm := flatMap_filter_perm
    (fun r : Timestamp × HistoryRow => homeBucket (q.occupied rows) (bucketOf (q.secs rows) r.1)) (q.counted rows)
    ((q.occupied_nodup rows).map (Option.some_injective _))
  rw [List.flatMap_map] at hperm
  refine hperm.trans (List.Perm.of_eq (List.filter_eq_self.mpr fun r _ => ?_))
  obtain ⟨b, hb, hhome⟩ := homeBucket_exists hocc (bucketOf (q.secs rows) r.1)
  simpa [hhome] using hb

/-- The counters of the buckets add up to those of the rows. -/
theorem counters_total (h : q.captures rows ≠ []) (c : CounterColumn) :
    Relational.aggregate (· + ·) ((bucketedHistory q rows).map fun b => b.counter c) =
      Relational.aggregate (· + ·) ((q.counted rows).map fun r => r.2.counter c) := by
  rw [aggregate_perm _ ((q.bucketedHistory_perm rows).map _), ← aggregate_perm _ ((q.assigned_perm rows h).map _),
    List.map_flatMap, aggregate_flatMap, List.map_map]
  rfl

/-- So do their histograms, in every slot. -/
theorem slots_total (h : q.captures rows ≠ []) {side : Bins → List Int} (hside : IsSide side) (i : ℕ) :
    (((bucketedHistory q rows).filterMap fun b => b.bins).map fun h => (side h).getD i 0).sum =
      (((q.counted rows).filterMap fun r => r.2.bins).map fun h => (side h).getD i 0).sum := by
  have hbuckets : ∀ bs : List Timestamp, (((bs.map (q.bucketRow rows)).filterMap fun b => b.bins).map fun h =>
      (side h).getD i 0).sum =
      (((bs.flatMap (q.assigned rows)).filterMap fun r => r.2.bins).map fun h => (side h).getD i 0).sum := fun bs => by
    induction bs with
    | nil => rfl
    | cons b bs ih =>
      have hslot := mergedBins_slot hside ((q.assigned rows b).filterMap fun r => r.2.bins) i
      rw [List.flatMap_cons, List.filterMap_append, List.map_append, List.sum_append, ← ih, ← hslot, List.map_cons,
        List.filterMap_cons, show (q.bucketRow rows b).bins = mergedBins _ from rfl]
      cases mergedBins ((q.assigned rows b).filterMap fun r => r.2.bins) <;> simp
  have hreported := ((q.bucketedHistory_perm rows).filterMap fun b => b.bins).map fun h => (side h).getD i 0
  have hassigned := ((q.assigned_perm rows h).filterMap fun r => r.2.bins).map fun h => (side h).getD i 0
  rw [hreported.sum_eq, hbuckets, hassigned.sum_eq]

/-- In automatic mode a capture is in the bounds that the width is derived from. -/
theorem captures_bounds {r : HistoryRow} (hr : r ∈ q.captures rows) :
    ∃ lo hi : Int, q.bounds rows = (some lo, some hi) ∧ lo ≤ r.capturedOn ∧ r.capturedOn ≤ hi := by
  obtain ⟨hr, hsel⟩ := List.mem_filter.mp hr
  rw [Bool.and_eq_true, decide_eq_true_eq, inRange, Bool.and_eq_true] at hsel
  obtain ⟨hname, hlo, hhi⟩ := hsel
  let captured := (rows.filter fun r => decide (r.name = q.name)).map HistoryRow.capturedOn
  have hmem : r.capturedOn ∈ captured :=
    List.mem_map_of_mem (List.mem_filter.mpr ⟨hr, decide_eq_true hname⟩)
  have hextent : q.extent rows = (captured.min?, captured.max?) := by
    rw [extent, ← aggregate_min, ← aggregate_max, List.map_map]
    rfl
  obtain ⟨first, hfirst⟩ := Option.isSome_iff_exists.mp (List.isSome_min?_of_mem hmem)
  obtain ⟨last, hlast⟩ := Option.isSome_iff_exists.mp (List.isSome_max?_of_mem hmem)
  have hfirst_le := (List.min?_eq_some_iff.mp hfirst).2 _ hmem
  have hle_last := (List.max?_eq_some_iff.mp hlast).2 _ hmem
  rw [bounds, hextent, hfirst, hlast]
  refine ⟨max (q.fromTime.getD first) first, min (q.toTime.getD last) last, ?_, ?_, ?_⟩
  · cases q.fromTime <;> cases q.toTime <;> rfl
  · cases hfrom : q.fromTime <;> simp_all
  · cases hto : q.toTime <;> simp_all

theorem le_ceilDiv_mul (a : Int) {b : Int} (hb : 0 < b) : a ≤ ceilDiv a b * b := by
  have := Int.ediv_mul_le (-a) hb.ne'
  rw [ceilDiv, Int.neg_mul]
  omega

/-- Automatic mode reports at most one bucket more than it was asked for. -/
theorem occupied_length (hmode : q.mode = .auto) : (q.occupied rows).length ≤ q.width + 1 := by
  by_cases hnil : q.captures rows = []
  · simp [occupied, hnil]
  obtain ⟨r, hr⟩ := List.exists_mem_of_ne_nil _ hnil
  obtain ⟨lo, hi, hbounds, -, -⟩ := q.captures_bounds rows hr
  have hsecs : q.secs rows = max 1 (ceilDiv (hi - lo) (max q.width 1 * microsPerSecond)) := by
    rw [secs, hmode, hbounds]
  let size := q.secs rows * microsPerSecond
  have hsize : 0 < size := by
    have : (1 : Int) ≤ q.secs rows := hsecs ▸ le_max_left _ _
    simp only [size, microsPerSecond]
    omega
  have hspan : hi ≤ lo + q.width * size := by
    have hpositive := q.positive
    have hwidth : max q.width 1 = q.width := max_eq_left hpositive
    have hceil := le_ceilDiv_mul (hi - lo) (b := q.width * microsPerSecond) (by simp only [microsPerSecond]; omega)
    have hle : ceilDiv (hi - lo) (q.width * microsPerSecond) ≤ q.secs rows := by
      rw [hsecs, hwidth]
      exact le_max_right _ _
    have := Int.mul_le_mul_of_nonneg_right hle (show (0 : Int) ≤ q.width * microsPerSecond by simp only [microsPerSecond]; omega)
    have hcomm : q.secs rows * (q.width * microsPerSecond) = q.width * size := by
      simp only [size]
      ring
    omega
  have hsubset : (q.occupied rows).toFinset ⊆ (Finset.Icc (lo / size) (hi / size)).image (· * size) := fun b hb => by
    obtain ⟨s, hs, rfl⟩ := List.mem_map.mp (List.mem_dedup.mp (List.mem_toFinset.mp hb))
    obtain ⟨lo', hi', hbounds', hlo, hhi⟩ := q.captures_bounds rows hs
    obtain ⟨rfl, rfl⟩ := Prod.mk.inj (hbounds'.symm.trans hbounds) |>.imp Option.some.inj Option.some.inj
    exact Finset.mem_image.mpr ⟨s.capturedOn / size, Finset.mem_Icc.mpr
      ⟨Int.ediv_le_ediv hsize hlo, Int.ediv_le_ediv hsize hhi⟩, rfl⟩
  have hcard := (Finset.card_le_card hsubset).trans Finset.card_image_le
  rw [List.toFinset_card_of_nodup (q.occupied_nodup rows), Int.card_Icc] at hcard
  have hdiv := Int.ediv_le_ediv hsize hspan
  rw [Int.add_mul_ediv_right _ _ hsize.ne'] at hdiv
  omega

end HistoryQuery

/-- Bucketed history conserves what was counted: each bucket reports the captures in it and the counted rows whose home
it is, each counted row has one home among the buckets reported, and nothing is lost or doubled in the sums. -/
theorem bucketedHistory_conserves (q : HistoryQuery) (rows : List HistoryRow) :
    ((bucketedHistory q rows).map fun b => b.capturedOn).Nodup ∧
    (∀ b ∈ bucketedHistory q rows,
      q.capturesIn rows b.capturedOn ≠ [] ∧
      (∀ c, b.gauge c = statsAgg q.aggregate ((q.capturesIn rows b.capturedOn).map fun r => r.gauge c)) ∧
      (∀ c, b.counter c = aggregate (· + ·) ((q.assigned rows b.capturedOn).map fun r => r.2.counter c)) ∧
      b.deltaOn = aggregate max ((q.assigned rows b.capturedOn).map fun r => some r.1) ∧
      b.readyOldestSeconds = aggregate max ((q.assigned rows b.capturedOn).map fun r => r.2.readyOldestSeconds) ∧
      b.bins = mergedBins ((q.assigned rows b.capturedOn).filterMap fun r => r.2.bins)) ∧
    (q.captures rows ≠ [] →
      (∀ r ∈ q.counted rows, ∃! b, b ∈ bucketedHistory q rows ∧
        homeBucket (q.occupied rows) (bucketOf (q.secs rows) r.1) = some b.capturedOn) ∧
      (∀ c, aggregate (· + ·) ((bucketedHistory q rows).map fun b => b.counter c) =
        aggregate (· + ·) ((q.counted rows).map fun r => r.2.counter c)) ∧
      ∀ i, (((bucketedHistory q rows).filterMap fun b => b.bins).map fun h => h.wait.getD i 0).sum =
          (((q.counted rows).filterMap fun r => r.2.bins).map fun h => h.wait.getD i 0).sum ∧
        (((bucketedHistory q rows).filterMap fun b => b.bins).map fun h => h.run.getD i 0).sum =
          (((q.counted rows).filterMap fun r => r.2.bins).map fun h => h.run.getD i 0).sum) ∧
    (q.mode = .auto → (bucketedHistory q rows).length ≤ q.width + 1) := by
  have hperm := q.bucketedHistory_perm rows
  have hmem : ∀ b, b ∈ bucketedHistory q rows ↔ ∃ k ∈ q.occupied rows, q.bucketRow rows k = b := fun b => by
    rw [hperm.mem_iff, List.mem_map]
  refine ⟨?_, fun b hb => ?_, fun h => ⟨fun r hr => ?_, q.counters_total rows h, fun i =>
    ⟨q.slots_total rows h .wait i, q.slots_total rows h .run i⟩⟩, fun hmode => ?_⟩
  · rw [(hperm.map _).nodup_iff, List.map_map]
    exact (List.map_id (q.occupied rows)).symm ▸ q.occupied_nodup rows
  · obtain ⟨k, hk, rfl⟩ := (hmem b).mp hb
    refine ⟨fun hnil => ?_, fun _ => rfl, fun _ => rfl, rfl, rfl, rfl⟩
    obtain ⟨r, hr, hbucket⟩ := List.mem_map.mp (List.mem_dedup.mp hk)
    have hcapture : r ∈ q.capturesIn rows k := List.mem_filter.mpr ⟨hr, decide_eq_true hbucket⟩
    rw [show q.capturesIn rows k = [] from hnil] at hcapture
    exact List.not_mem_nil hcapture
  · have hassigned := (q.assigned_perm rows h).mem_iff.mpr hr
    obtain ⟨k, hk, hhome⟩ := List.mem_flatMap.mp hassigned
    have hhome := of_decide_eq_true (List.mem_filter.mp hhome).2
    refine ⟨q.bucketRow rows k, ⟨(hmem _).mpr ⟨k, hk, rfl⟩, hhome⟩, ?_⟩
    rintro b ⟨hb, hhome'⟩
    obtain ⟨k', -, rfl⟩ := (hmem b).mp hb
    exact congrArg (q.bucketRow rows) (Option.some.inj (hhome'.symm.trans hhome))
  · rw [hperm.length_eq, List.length_map]
    exact q.occupied_length rows hmode

end PgBoss
