import PgBoss.Fetch.Selection
import PgBoss.Relational.OrderLimit

/-!
# Priority and creation order

The `next` CTE sorts the eligible rows by priority and creation and cuts at `limit`, so no row
left out of the batch is ahead of one in it. The rankings then drop rows of the batch in an
order of their own: `singleton_ranking` numbers the rows of a key as they come, and
`group_ranking` numbers the rows of a group by `id`, which is a random uuid.
-/

namespace PgBoss

open Relational

variable {now : Timestamp} {rank : Job → ℕ} {o : FetchOptions} {db db' : Database} {claimed : List Job}
  {a b j : Job}

section Batch

theorem fetchBefore_total (a b : Job) : fetchBefore a b ∨ fetchBefore b a := by
  rcases lt_trichotomy a.priority b.priority with h | h | h
  · exact .inr (.inl h)
  · rcases le_total a.createdOn b.createdOn with hc | hc
    · exact .inl (.inr ⟨h, hc⟩)
    · exact .inr (.inr ⟨h.symm, hc⟩)
  · exact .inl (.inl h)

theorem fetchBefore_trans {c : Job} (hab : fetchBefore a b) (hbc : fetchBefore b c) : fetchBefore a c := by
  rcases hab with hab | ⟨hab, hcreated⟩
  · rcases hbc with hbc | ⟨hbc, -⟩
    · exact .inl (hbc.trans hab)
    · exact .inl (hbc ▸ hab)
  · rcases hbc with hbc | ⟨hbc, hcreated'⟩
    · exact .inl (hab ▸ hbc)
    · exact .inr ⟨hab.trans hbc, hcreated.trans hcreated'⟩

instance : Std.Total fetchBefore := ⟨fetchBefore_total⟩

instance : IsTrans Job fetchBefore := ⟨fun _ _ _ => fetchBefore_trans⟩

/-- A row left out of the batch is not ahead of one in it. -/
theorem fetchNext_before (ha : a ∈ fetchNext now [] o db) (hb : b ∈ db.jobs)
    (heligible : fetchEligible now o db b = true) (hout : b ∉ fetchNext now [] o db) : fetchBefore a b := by
  have hnext : fetchNext now [] o db = orderLimit fetchBefore o.limit (db.jobs.filter (fetchEligible now o db)) := by
    simp [fetchNext, orderLimit]
  rw [hnext] at ha hout
  exact orderLimit_before ha (List.mem_filter.mpr ⟨hb, heligible⟩) hout

/-- The test of `group_filtered` on a ranked row. -/
def groupFits (o : FetchOptions) (db : Database) (ranked : List Job) (j : Job) : Bool :=
  match o.groupConcurrency, j.groupId with
  | some g, some group => decide ((activeCount o g group db : Int) + groupRank ranked j ≤ g.limitFor j.groupTier)
  | _, _ => true

/-- A row is chosen when it is ranked first for its key and its place in its group fits. -/
theorem fetchChosen_iff : j ∈ fetchChosen now rank [] o db ↔
    j ∈ fetchRanked now rank [] o db ∧ groupFits o db (fetchRanked now rank [] o db) j = true := by
  rw [fetchChosen, ← fetchRanked]
  cases hg : o.groupConcurrency with
  | none => simp [groupFits, hg]
  | some g =>
    cases hj : j.groupId with
    | none => simp [groupFiltered, groupFits, hj]
    | some group => simp [groupFiltered, groupFits, hg, hj]

/-- The claimed rows are the chosen ones. -/
theorem claimed_iff (hdb : db.Allowed) (hrun : fetchNextJob now rank [] o db = .ok (db', claimed))
    (hj : j ∈ db.jobs) : j.jobKey ∈ claimed.map Job.jobKey ↔ j ∈ fetchChosen now rank [] o db := by
  obtain ⟨-, -, -, rfl⟩ := fetchNextJob_ok hrun
  simp only [List.map_map, List.mem_map, List.mem_filter, Function.comp_apply, claimSet_jobKey]
  constructor
  · rintro ⟨k, ⟨hk, hselects⟩, hkey⟩
    exact (fetchSelects_iff hdb hj).mp (hdb.eq_of_jobKey hk hj hkey ▸ hselects)
  · intro hchosen
    exact ⟨j, ⟨hj, (fetchSelects_iff hdb hj).mpr hchosen⟩, rfl⟩

end Batch

section Order

/-- A claim of the row is limited, by its key or by its group. -/
def FetchOptions.limits (o : FetchOptions) (j : Job) : Bool :=
  o.singletonPolicy || (o.groupConcurrency.isSome && j.groupId.isSome)

/-- Two rows of the queue compete for a slot: neither is limited, or both need the slot of one
key, or both need a slot of one group and tier. -/
def Competes (o : FetchOptions) (a b : Job) : Prop :=
  (o.limits a = false ∧ o.limits b = false) ∨
    (o.singletonPolicy = true ∧ a.slotKey = b.slotKey) ∨
    (o.groupConcurrency.isSome = true ∧ a.groupId.isSome = true ∧ a.groupId = b.groupId ∧
      a.groupTier = b.groupTier)

/-- No claimed job comes after an eligible one that competes with it and was left. -/
def FetchedInOrder (now : Timestamp) (o : FetchOptions) (db : Database) (claimed : List Job) : Prop :=
  ∀ a ∈ db.jobs, a.jobKey ∈ claimed.map Job.jobKey → ∀ b ∈ db.jobs, fetchEligible now o db b = true →
    b.jobKey ∉ claimed.map Job.jobKey → Competes o a b → fetchBefore a b

/-- The rankings cut the batch in its own order: the row numbered first of a key is not after
one the numbering drops, and where a group has room for some of its ranked rows, those the ids
put first are not after those the ids put last. -/
structure RanksInOrder (now : Timestamp) (rank : Job → ℕ) (o : FetchOptions) (db : Database) : Prop where
  keys : o.singletonFetch = true → ∀ a ∈ fetchRanked now rank [] o db,
    groupFits o db (fetchRanked now rank [] o db) a = true → ∀ b ∈ fetchNext now [] o db,
      b ∉ singletonFirst rank (fetchNext now [] o db) → Competes o a b → fetchBefore a b
  groups : o.groupConcurrency.isSome = true → ∀ a ∈ fetchRanked now rank [] o db,
    groupFits o db (fetchRanked now rank [] o db) a = true → ∀ b ∈ fetchRanked now rank [] o db,
      groupFits o db (fetchRanked now rank [] o db) b = false → Competes o a b → fetchBefore a b

/-- A row a ranking drops is numbered after the first of its key, or does not fit its group. -/
theorem dropped_cases (hb : b ∈ fetchNext now [] o db) (hdrop : b ∉ fetchChosen now rank [] o db) :
    (o.singletonFetch = true ∧ b ∉ singletonFirst rank (fetchNext now [] o db)) ∨
      (o.groupConcurrency.isSome = true ∧ b ∈ fetchRanked now rank [] o db ∧
        groupFits o db (fetchRanked now rank [] o db) b = false) := by
  by_cases hranked : b ∈ fetchRanked now rank [] o db
  · right
    have hfits : groupFits o db (fetchRanked now rank [] o db) b = false := by
      simpa [fetchChosen_iff, hranked] using hdrop
    refine ⟨?_, hranked, hfits⟩
    cases hg : o.groupConcurrency with
    | none => simp [groupFits, hg] at hfits
    | some g => rfl
  · left
    rw [fetchRanked] at hranked
    split at hranked
    · rename_i hfetch
      exact ⟨hfetch, hranked⟩
    · exact absurd hb hranked

/-- A fetch that runs alone takes competing jobs in priority and creation order exactly when
its rankings cut the batch in that order. -/
theorem fetchNextJob_inOrder_iff (hdb : db.Allowed)
    (hrun : fetchNextJob now rank [] o db = .ok (db', claimed)) :
    FetchedInOrder now o db claimed ↔ RanksInOrder now rank o db := by
  have hclaimed : ∀ {j}, j ∈ fetchNext now [] o db →
      (j.jobKey ∈ claimed.map Job.jobKey ↔ j ∈ fetchChosen now rank [] o db) :=
    fun hj => claimed_iff hdb hrun (fetchNext_mem hj).1
  constructor
  · -- a pair the rankings invert is a claimed row and a row left, both of the batch
    intro horder
    have hpair : ∀ a b, a ∈ fetchChosen now rank [] o db → b ∈ fetchNext now [] o db →
        b ∉ fetchChosen now rank [] o db → Competes o a b → fetchBefore a b := by
      intro a b ha hb hdrop hcompetes
      have hnext := (fetchChosen_sublist.trans fetchRanked_sublist).mem ha
      exact horder a (fetchNext_mem hnext).1 ((hclaimed hnext).mpr ha) b (fetchNext_mem hb).1
        (fetchNext_mem hb).2.1 (fun h => hdrop ((hclaimed hb).mp h)) hcompetes
    refine ⟨fun hfetch a ha hfits b hb hlater => ?_, fun _ a ha hfits b hb hunfit => ?_⟩
    · refine hpair a b (fetchChosen_iff.mpr ⟨ha, hfits⟩) hb fun h => hlater ?_
      have hranked := fetchChosen_sublist.mem h
      rwa [fetchRanked, if_pos hfetch] at hranked
    · refine hpair a b (fetchChosen_iff.mpr ⟨ha, hfits⟩) (fetchRanked_sublist.mem hb) fun h => ?_
      rw [(fetchChosen_iff.mp h).2] at hunfit
      contradiction
  · intro hranks a hadb ha b hbdb heligible hb hcompetes
    have hchosen := (claimed_iff hdb hrun hadb).mp ha
    have hdrop : b ∉ fetchChosen now rank [] o db := fun h => hb ((claimed_iff hdb hrun hbdb).mpr h)
    obtain ⟨hranked, hfits⟩ := fetchChosen_iff.mp hchosen
    by_cases hbatch : b ∈ fetchNext now [] o db
    · rcases dropped_cases hbatch hdrop with ⟨hfetch, hlater⟩ | ⟨hgroup, hin, hunfit⟩
      · exact hranks.keys hfetch a hranked hfits b hbatch hlater hcompetes
      · exact hranks.groups hgroup a hranked hfits b hin hunfit hcompetes
    · exact fetchNext_before (fetchRanked_sublist.mem hranked) hbdb heligible hbatch

end Order

section SmallerId

/-- A waiting job of a group. -/
def groupJob (id : Uuid) (priority : Int) : Job where
  id := id
  name := "q"
  priority := priority
  groupId := some "g"
  startAfter := 0
  createdOn := 0
  keepUntil := 0
  policy := some .standard

/-- A batch of the queue whose groups have one slot. -/
def groupBatch : FetchOptions :=
  { name := "q", policy := .standard, limit := 2, groupConcurrency := some { default := 1 } }

/-- Two jobs of one group: the one with the smaller id has the lower priority. -/
def smallerIdLast : Database := { jobs := [groupJob 1 0, groupJob 2 10] }

/-- The batch claims the job of priority 0 and leaves the one of priority 10. -/
theorem smallerId_overtakes : smallerIdLast.Allowed ∧
    (∃ db', fetchNextJob 1 (fun _ => 0) [] groupBatch smallerIdLast =
      .ok (db', [claimSet 1 (groupJob 1 0)])) ∧
    ¬ FetchedInOrder 1 groupBatch smallerIdLast [claimSet 1 (groupJob 1 0)] := by
  refine ⟨⟨by decide, by decide⟩, ⟨_, rfl⟩, fun horder => ?_⟩
  exact absurd (horder (groupJob 1 0) (by decide) (by decide) (groupJob 2 10) (by decide) (by decide)
    (by decide) (.inr (.inr (by decide)))) (by decide)

/-- Two jobs of one group: the one with the smaller id has the higher priority. -/
def smallerIdFirst : Database := { jobs := [groupJob 1 10, groupJob 2 0] }

/-- The theorem at both tables. -/
theorem fetchNextJob_inOrder_iff_group :
    FetchedInOrder 1 groupBatch smallerIdFirst [claimSet 1 (groupJob 1 10)] ∧
      ¬ RanksInOrder 1 (fun _ => 0) groupBatch smallerIdLast := by
  have hrun : fetchNextJob 1 (fun _ => 0) [] groupBatch smallerIdFirst = .ok (_, [claimSet 1 (groupJob 1 10)]) := rfl
  have hrun' : fetchNextJob 1 (fun _ => 0) [] groupBatch smallerIdLast = .ok (_, [claimSet 1 (groupJob 1 0)]) := rfl
  refine ⟨(fetchNextJob_inOrder_iff ⟨by decide, by decide⟩ hrun).mpr ⟨?_, ?_⟩, fun hranks => ?_⟩
  · intro hfetch
    exact absurd hfetch (by decide)
  · unfold Competes; decide
  · have horder := (fetchNextJob_inOrder_iff ⟨by decide, by decide⟩ hrun').mpr hranks
    exact absurd (horder (groupJob 1 0) (by decide) (by decide) (groupJob 2 10) (by decide) (by decide)
      (by decide) (.inr (.inr (by decide)))) (by decide)

end SmallerId

end PgBoss
