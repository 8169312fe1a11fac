import PgBoss.Plans.StatsHistory

/-!
# Where counters are placed

The window over the joined buckets, a running maximum with the first bucket as a fallback, places a
bucket of counters in its own bucket where that has a capture, else in the newest earlier one with a
capture, else in the first. Folding the placed rows leaves the gauges of each bucket as they were and
adds up the counters placed in it.
-/

namespace PgBoss

open Relational

section Home

variable {occupied : List Timestamp} {own b : Timestamp}

/-- The bucket that a bucket of counters is reported in, among the buckets that have a capture. -/
def homeBucket (occupied : List Timestamp) (own : Timestamp) : Option Timestamp :=
  if own ∈ occupied then some own
  else ((occupied.filter fun b => decide (b < own)).max?).or occupied.min?

theorem homeBucket_own (h : own ∈ occupied) : homeBucket occupied own = some own := if_pos h

theorem homeBucket_mem (h : homeBucket occupied own = some b) : b ∈ occupied := by
  rw [homeBucket] at h
  split at h
  next hown => exact Option.some.inj h ▸ hown
  next =>
    rcases Option.or_eq_some_iff.mp h with hmax | ⟨-, hmin⟩
    · exact (List.mem_filter.mp (List.max?_mem hmax)).1
    · exact List.min?_mem hmin

theorem homeBucket_exists (h : occupied ≠ []) (own : Timestamp) : ∃ b ∈ occupied, homeBucket occupied own = some b := by
  have hsome : (homeBucket occupied own).isSome := by
    rw [homeBucket]
    split
    · rfl
    · rw [Option.isSome_or, List.isSome_min?_of_ne_nil h, Bool.or_true]
  obtain ⟨b, hb⟩ := Option.isSome_iff_exists.mp hsome
  exact ⟨b, homeBucket_mem hb, hb⟩

/-- The running maximum with its fallback. -/
theorem homeBucket_eq (occupied : List Timestamp) (own : Timestamp) :
    ((occupied.filter fun b => decide (b ≤ own)).max?).or occupied.min? = homeBucket occupied own := by
  rw [homeBucket]
  split
  next hown =>
    have hmax : (occupied.filter fun b => decide (b ≤ own)).max? = some own :=
      List.max?_eq_some_iff.mpr ⟨List.mem_filter.mpr ⟨hown, by simp⟩, fun b hb => by simpa using (List.mem_filter.mp hb).2⟩
    rw [hmax, Option.some_or]
  next hown =>
    have hle : ∀ b ∈ occupied, decide (b ≤ own) = decide (b < own) := fun b hb =>
      decide_eq_decide.mpr ⟨fun hle => lt_of_le_of_ne hle fun heq => hown (heq ▸ hb), le_of_lt⟩
    rw [List.filter_congr hle]

end Home

section Placed

variable {α : Type*} (f : α → α → α) [Std.Associative f] [Std.Commutative f] {gs : List GaugeRow} {cs : List CounterRow}

/-- `COALESCE(g.bucket, c.bucket)`. -/
abbrev joinKey (x : JoinRow GaugeRow CounterRow) : Timestamp := x.key GaugeRow.bucket CounterRow.bucket

theorem joined_perm (gs : List GaugeRow) (cs : List CounterRow) :
    (joined gs cs).Perm (fullJoin GaugeRow.bucket CounterRow.bucket gs cs) :=
  List.mergeSort_perm _ _

theorem joined_sorted (hg : (gs.map GaugeRow.bucket).Nodup) (hc : (cs.map CounterRow.bucket).Nodup) :
    (joined gs cs).Pairwise fun x y => joinKey x < joinKey y := by
  have hle : (joined gs cs).Pairwise fun x y => joinKey x ≤ joinKey y :=
    (List.pairwise_mergeSort (fun _ _ _ => by simpa using le_trans) (fun _ _ => by simpa using le_total _ _) _).imp
      (by simp)
  have hne : ((joined gs cs).map joinKey).Nodup :=
    (((joined_perm gs cs).map joinKey).nodup_iff).mpr (fullJoin_keys_nodup hg hc)
  exact (hle.and (List.pairwise_map.mp hne)).imp fun h => lt_of_le_of_ne h.1 h.2

variable (gs) in
/-- What the join rows of some buckets hold of the gauges. -/
theorem aggregate_gauges (hc : (cs.map CounterRow.bucket).Nodup) (p : Timestamp → Bool) (column : GaugeRow → Option α) :
    aggregate f (((joined gs cs).filter fun x => p (joinKey x)).map fun x => x.left?.bind column) =
      aggregate f ((gs.filter fun g => p g.bucket).map column) := by
  rw [aggregate_perm f (((joined_perm gs cs).filter _).map _), aggregate_bind, fullJoin_left_where hc]

/-- What the join rows of some buckets hold of the counters. -/
theorem aggregate_counters (hg : (gs.map GaugeRow.bucket).Nodup) (hc : (cs.map CounterRow.bucket).Nodup)
    (p : Timestamp → Bool) (column : CounterRow → Option α) :
    aggregate f (((joined gs cs).filter fun x => p (joinKey x)).map fun x => x.right?.bind column) =
      aggregate f ((cs.filter fun c => p c.bucket).map column) := by
  rw [aggregate_perm f (((joined_perm gs cs).filter _).map _), aggregate_bind]
  exact aggregate_perm f ((fullJoin_right_where hg hc p).map column)

/-- The window function places every row in its home bucket. -/
theorem placed_eq (hg : (gs.map GaugeRow.bucket).Nodup) (hc : (cs.map CounterRow.bucket).Nodup) :
    placed gs cs = (joined gs cs).map fun x => placedRow (homeBucket (gs.map GaugeRow.bucket) (joinKey x)) x := by
  have hbucket : gaugeBucket = fun x => x.left?.bind fun g => some g.bucket := by
    funext x
    cases x <;> rfl
  have hfirst : aggregate min ((joined gs cs).map gaugeBucket) = (gs.map GaugeRow.bucket).min? := by
    have h := aggregate_gauges min gs hc (fun _ => true) fun g => some g.bucket
    rw [List.filter_true, List.filter_true, ← hbucket] at h
    rw [h, ← aggregate_min, List.map_map]
    rfl
  have hnewest : ∀ k, aggregate max (((joined gs cs).filter fun x => decide (joinKey x ≤ k)).map gaugeBucket) =
      ((gs.map GaugeRow.bucket).filter fun b => decide (b ≤ k)).max? := fun k => by
    rw [hbucket, aggregate_gauges max gs hc (fun b => decide (b ≤ k)), ← aggregate_max, List.filter_map, List.map_map]
    rfl
  rw [placed, running_eq max gaugeBucket joinKey (joined_sorted hg hc), List.map_map, hfirst]
  refine List.map_congr_left fun x _ => ?_
  rw [Function.comp_apply, hnewest, Option.merge_none_left, ← homeBucket_eq]

theorem placed_filter (hg : (gs.map GaugeRow.bucket).Nodup) (hc : (cs.map CounterRow.bucket).Nodup) (b : Timestamp) :
    ((placed gs cs).filter fun p => decide (p.bucket = some b)) =
      ((joined gs cs).filter fun x => decide (homeBucket (gs.map GaugeRow.bucket) (joinKey x) = some b)).map fun x =>
        placedRow (homeBucket (gs.map GaugeRow.bucket) (joinKey x)) x := by
  rw [placed_eq hg hc, List.filter_map]
  rfl

/-- The buckets that rows were placed in are those with a capture. -/
theorem mem_placed_bucket (hg : (gs.map GaugeRow.bucket).Nodup) (hc : (cs.map CounterRow.bucket).Nodup) {b : Timestamp} :
    b ∈ (placed gs cs).filterMap PlacedRow.bucket ↔ b ∈ gs.map GaugeRow.bucket := by
  rw [placed_eq hg hc, List.filterMap_map, List.mem_filterMap]
  constructor
  · rintro ⟨x, -, hx⟩
    exact homeBucket_mem hx
  · intro hb
    obtain ⟨g, hg', rfl⟩ := List.mem_map.mp hb
    have hleft : g ∈ (fullJoin GaugeRow.bucket CounterRow.bucket gs cs).filterMap JoinRow.left? := by
      rwa [fullJoin_left hc]
    obtain ⟨x, hx, hxg⟩ := List.mem_filterMap.mp hleft
    refine ⟨x, (joined_perm gs cs).mem_iff.mpr hx, ?_⟩
    rw [← (fullJoin_key hc hx).1 g hxg] at hb ⊢
    exact homeBucket_own hb

end Placed

section Folded

/-- A folded row for each bucket, over the rows placed in it. -/
theorem folded_eq (ps : List PlacedRow) :
    folded ps = (ps.filterMap PlacedRow.bucket).dedup.map fun b =>
      foldedRow b (ps.filter fun p => decide (p.bucket = some b)) := by
  have hkeys : (ps.filterMap fun p => p.bucket.map fun b => (b, p)).map Prod.fst = ps.filterMap PlacedRow.bucket := by
    rw [List.map_filterMap]
    exact List.filterMap_congr fun p _ => by cases p.bucket <;> rfl
  rw [folded, groupBy, hkeys, List.map_map]
  refine List.map_congr_left fun b _ => congrArg (foldedRow b) ?_
  rw [List.filter_filterMap, List.map_filterMap, ← List.filterMap_eq_filter]
  refine List.filterMap_congr fun p _ => ?_
  cases hp : p.bucket with
  | none => simp [Option.guard, hp]
  | some b' => by_cases hb : b' = b <;> simp [Option.guard, Option.filter, hp, hb]

end Folded

end PgBoss
