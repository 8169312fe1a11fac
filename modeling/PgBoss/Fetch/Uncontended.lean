import PgBoss.Fetch.GroupLimit

/-!
# A fetch that nothing contends with

The claiming statement tests each candidate of a group by its own rank: the active jobs of the
group and the candidates up to it are within the limit of its tier. The recount tests each
claimed row by its group's whole count. Where the rows of a group all have one limit the two
readings agree. Where a row of a larger limit is claimed over one of a smaller, the recount
finds the smaller limit exceeded, though nothing has come between.
-/

namespace PgBoss

open Relational

variable {now : Timestamp} {rank : Job → ℕ} {locked : List JobKey} {o : FetchOptions} {db db' : Database}
  {claimed rows : List Job} {g : GroupConcurrency} {j : Job} {group : String}

section Reading

/-- What the recount reads for a group, nothing having come between: the active jobs before the claim, and the
rows the claim takes. It reads none for a group whose id is empty. -/
def countAfter (o : FetchOptions) (db : Database) (chosen : List Job) : Option String → ℕ
  | none => 0
  | some group =>
    if group = "" then 0
    else activeInGroup o.name group db + chosen.countP fun j => decide (j.groupId = some group)

/-- Each row the statement chooses has a limit, as the recount reads it, that its group is within once all of
them are claimed. -/
def ChosenWithin (now : Timestamp) (rank : Job → ℕ) (locked : List JobKey) (o : FetchOptions) (db : Database) : Prop :=
  ∀ g, o.groupConcurrency = some g →
    (batchGroups (fetchChosen now rank locked o db)).isEmpty = false → ∀ j ∈ fetchChosen now rank locked o db,
      exceeds g j.groupTier (countAfter o db (fetchChosen now rank locked o db) j.groupId) = false

/-- The loop finds no excess if no row's group counts over its limit to begin with. -/
theorem excessIds_eq_nil_iff {active : Option String → Int} :
    excessIds g active rows = [] ↔ ∀ r ∈ rows, exceeds g r.groupTier (active r.groupId) = false := by
  induction rows with
  | nil => simp [excessIds]
  | cons row rest ih =>
    rw [excessIds, List.forall_mem_cons]
    cases hrow : exceeds g row.groupTier (active row.groupId) with
    | true => simp
    | false => simpa using ih

theorem countOf_of_notMem {groups : List String} {name : String} (h : group ∉ groups) :
    countOf (getActiveGroupCounts name groups db) (some group) = 0 := by
  have hnone : (getActiveGroupCounts name groups db).find? (fun entry => entry.1 = group) = none := by
    refine List.find?_eq_none.mpr fun entry hentry => ?_
    obtain ⟨k, hk, hkentry⟩ := List.mem_filterMap.mp hentry
    split at hkentry
    · contradiction
    · obtain rfl := Option.some.inj hkentry
      exact fun heq => h (of_decide_eq_true heq ▸ List.mem_dedup.mp hk)
  rw [countOf, Option.bind_some, hnone]
  rfl

theorem mem_batchGroups : group ∈ batchGroups rows ↔ (∃ r ∈ rows, r.groupId = some group) ∧ group ≠ "" := by
  simp [batchGroups]

end Reading

section Claimed

/-- The rows a fetch claims are those it chose, with the columns a claim sets. -/
theorem fetchNextJob_perm (hdb : db.Allowed) (hrun : fetchNextJob now rank locked o db = .ok (db', claimed)) :
    claimed.Perm ((fetchChosen now rank locked o db).map (claimSet now)) := by
  obtain ⟨-, -, -, rfl⟩ := fetchNextJob_ok hrun
  have hnodup := hdb.consistent.nodup clashes_self
  have hchosen : (fetchChosen now rank locked o db).Nodup := by
    refine (fetchChosen_sublist.trans fetchRanked_sublist).nodup (List.Nodup.sublist (List.take_sublist _ _) ?_)
    exact ((List.perm_insertionSort fetchBefore _).nodup_iff.mpr (hnodup.filter _)).filter _
  refine ((List.perm_ext_iff_of_nodup (hnodup.filter _) hchosen).mpr fun j => ?_).map _
  rw [List.mem_filter]
  exact ⟨fun h => (fetchSelects_iff hdb h.1).mp h.2, fun h =>
    ⟨(fetchChosen_mem h).1, (fetchSelects_iff hdb (fetchChosen_mem h).1).mpr h⟩⟩

/-- A claim adds the rows it takes to the active jobs of their group. -/
theorem activeInGroup_claimed (hdb : db.Allowed) (hrun : fetchNextJob now rank locked o db = .ok (db', claimed)) :
    activeInGroup o.name group db' = activeInGroup o.name group db +
      (fetchChosen now rank locked o db).countP fun j => decide (j.groupId = some group) := by
  obtain ⟨hjobs, -, -, hclaimed⟩ := fetchNextJob_ok hrun
  have hperm := fetchNextJob_perm hdb hrun
  have hchosen : (fetchChosen now rank locked o db).countP (fun j => decide (j.groupId = some group)) =
      claimed.countP fun j => decide (j.groupId = some group) := by
    rw [hperm.countP_eq, List.countP_map]
    rfl
  -- a row that is chosen waits, so it did not count before
  have hmove : ∀ l : List Job, (∀ j ∈ l, fetchSelects now rank locked o db j = true → j.name = o.name ∧ j.state < .active) →
      (l.map fun j => if fetchSelects now rank locked o db j then claimSet now j else j).countP
          (fun j => decide (j.name = o.name ∧ j.state = .active ∧ j.groupId = some group)) =
        l.countP (fun j => decide (j.name = o.name ∧ j.state = .active ∧ j.groupId = some group)) +
          ((l.filter (fetchSelects now rank locked o db)).map (claimSet now)).countP
            fun j => decide (j.groupId = some group) := by
    intro l
    induction l with
    | nil => simp
    | cons j rest ih =>
      intro hwaits
      obtain ⟨hj, hrest⟩ := List.forall_mem_cons.mp hwaits
      rw [List.map_cons, List.countP_cons, List.countP_cons, ih hrest]
      by_cases hselects : fetchSelects now rank locked o db j = true
      · obtain ⟨hname, hstate⟩ := hj hselects
        have hnot : j.state ≠ .active := fun h => by
          rw [h] at hstate
          exact absurd hstate (by decide)
        rw [List.filter_cons_of_pos hselects, List.map_cons, List.countP_cons, if_pos hselects]
        simp [claimSet, hname, hnot]
        omega
      · rw [List.filter_cons_of_neg hselects, if_neg hselects]
        omega
  rw [activeInGroup, activeInGroup, hjobs, hchosen, hclaimed]
  refine hmove db.jobs fun j hj hselects => ?_
  obtain ⟨-, heligible, -⟩ := fetchChosen_mem ((fetchSelects_iff hdb hj).mp hselects)
  obtain ⟨hname, hstate, -⟩ := fetchEligible_iff.mp heligible
  exact ⟨hname, hstate⟩

/-- What the recount reads right after the claim. -/
theorem countOf_claimed (hdb : db.Allowed) (hrun : fetchNextJob now rank locked o db = .ok (db', claimed))
    {r : Job} (hr : r ∈ rows) :
    countOf (getActiveGroupCounts o.name (batchGroups rows) db') r.groupId =
      countAfter o db (fetchChosen now rank locked o db) r.groupId := by
  cases hgroup : r.groupId with
  | none => rfl
  | some group =>
    rw [countAfter]
    split
    case isTrue hempty => exact countOf_of_notMem fun hin => (mem_batchGroups.mp hin).2 hempty
    case isFalse hsome =>
      rw [countOf_active (mem_batchGroups.mpr ⟨⟨r, hr, hgroup⟩, hsome⟩), activeInGroup_claimed hdb hrun]

end Claimed

/-- With nothing between the claim and the recount, the recount finds no excess and the fetch returns what it
claimed exactly if the chosen rows' own limits allow their groups once they are claimed. -/
theorem fetch_keeps_iff (now : Timestamp) (rank : Job → ℕ) (locked : List JobKey) (o : FetchOptions)
    (db db' : Database) (claimed rows : List Job) (hdb : db.Allowed)
    (hrun : fetchNextJob now rank locked o db = .ok (db', claimed)) (hrows : rows.Perm claimed) :
    (recount o rows db' = [] ∧ fetchReturn o.name rows (recount o rows db') db' = (db', rows)) ↔
      ChosenWithin now rank locked o db := by
  have hperm : rows.Perm ((fetchChosen now rank locked o db).map (claimSet now)) :=
    hrows.trans (fetchNextJob_perm hdb hrun)
  have hreturn : (recount o rows db' = [] ∧ fetchReturn o.name rows (recount o rows db') db' = (db', rows)) ↔
      recount o rows db' = [] := and_iff_left_of_imp fun hnone => by rw [hnone, fetchReturn]; rfl
  rw [hreturn, recount, ChosenWithin]
  cases o.groupConcurrency with
  | none => simp
  | some g =>
    have hgroups : (batchGroups rows).isEmpty = (batchGroups (fetchChosen now rank locked o db)).isEmpty := by
      have hbatch : (batchGroups rows).Perm (batchGroups (fetchChosen now rank locked o db)) := by
        refine ((hperm.filterMap Job.groupId).trans (List.Perm.of_eq ?_)).filter _
        rw [List.filterMap_map]
        rfl
      rw [Bool.eq_iff_iff, List.isEmpty_iff_length_eq_zero, List.isEmpty_iff_length_eq_zero, hbatch.length_eq]
    simp only [Option.some.injEq, forall_eq', ← hgroups]
    cases (batchGroups rows).isEmpty with
    | true => simp
    | false =>
      simp only [Bool.false_eq_true, if_false, true_imp_iff, excessIds_eq_nil_iff, List.mem_reverse]
      constructor
      · intro h j hj
        have hr : claimSet now j ∈ rows := hperm.mem_iff.mpr (List.mem_map_of_mem hj)
        have hrow := h _ hr
        rw [countOf_claimed hdb hrun hr] at hrow
        exact hrow
      · intro h r hr
        obtain ⟨j, hj, rfl⟩ := List.mem_map.mp (hperm.mem_iff.mp hr)
        rw [countOf_claimed hdb hrun hr]
        exact h j hj

section OneLimit

/-- The active jobs a group has before a claim are counted by the statement that takes a row of it. -/
theorem activeCount_eq (heligible : fetchEligible now o db j = true) (hgroups : o.groupConcurrency = some g)
    (hgroup : j.groupId = some group) : activeCount o g group db = activeInGroup o.name group db := by
  have hfilter := (fetchEligible_iff.mp heligible).2.2.2.2.2.2.2
  rw [activeCount]
  split
  case isFalse => rfl
  case isTrue hsingle =>
    simp only [groupConcurrencyFilter, hgroups, hgroup, if_pos hsingle, Bool.not_eq_true'] at hfilter
    exact (List.countP_eq_zero.mpr fun k hk => List.any_eq_false.mp hfilter k hk).symm

/-- The last by id of the rows chosen of a group was tested with all of them before it. -/
theorem exists_last_chosen (hgroups : o.groupConcurrency = some g) (hj : j ∈ fetchChosen now rank locked o db)
    (hgroup : j.groupId = some group) : ∃ k ∈ fetchChosen now rank locked o db, k.groupId = some group ∧
      (activeInGroup o.name group db : ℤ) +
        ((fetchChosen now rank locked o db).countP fun j => decide (j.groupId = some group) : ℕ) ≤
          g.limitFor k.groupTier := by
  obtain ⟨k, hk, hlast⟩ := Finset.exists_max_image
    ((fetchChosen now rank locked o db).filter fun x : Job => decide (x.groupId = some group)).toFinset Job.id
    ⟨j, List.mem_toFinset.mpr (List.mem_filter.mpr ⟨hj, decide_eq_true hgroup⟩)⟩
  obtain ⟨hchosen, hkgroup⟩ := List.mem_filter.mp (List.mem_toFinset.mp hk)
  have hkgroup : k.groupId = some group := of_decide_eq_true hkgroup
  refine ⟨k, hchosen, hkgroup, ?_⟩
  have htested : (activeCount o g group db : ℤ) + groupRank (fetchRanked now rank locked o db) k ≤
      g.limitFor k.groupTier := by
    have hfiltered : k ∈ groupFiltered o g db (fetchRanked now rank locked o db) := by
      have hfiltered := hchosen
      rw [fetchChosen, hgroups] at hfiltered
      exact hfiltered
    have htest := (List.mem_filter.mp hfiltered).2
    rw [hkgroup] at htest
    exact of_decide_eq_true htest
  have hrank : (fetchChosen now rank locked o db).countP (fun j => decide (j.groupId = some group)) ≤
      groupRank (fetchRanked now rank locked o db) k := by
    refine le_trans ?_ (fetchChosen_sublist.countP_le (p := fun x => decide (x.groupId = k.groupId ∧ x.id ≤ k.id)))
    refine List.countP_mono_left fun x hx hxgroup => ?_
    have hxle : x.id ≤ k.id := hlast x (List.mem_toFinset.mpr (List.mem_filter.mpr ⟨hx, hxgroup⟩))
    exact decide_eq_true ⟨(of_decide_eq_true hxgroup).trans hkgroup.symm, hxle⟩
  rw [activeCount_eq (fetchChosen_mem hchosen).2.1 hgroups hkgroup] at htested
  omega

/-- Where the recount reads one limit for the rows chosen of each group, the one the statement reads for them,
and none below zero, the two agree. -/
theorem chosenWithin_of_oneLimit
    (hlimit : ∀ g, o.groupConcurrency = some g → ∀ j ∈ fetchChosen now rank locked o db, 0 ≤ (tierLimit g j.groupTier).getD 0 ∧
      ∀ k ∈ fetchChosen now rank locked o db, j.groupId = k.groupId →
        tierLimit g j.groupTier = some (g.limitFor k.groupTier)) : ChosenWithin now rank locked o db := by
  intro g hgroups _ j hj
  obtain ⟨hnonneg, hsame⟩ := hlimit g hgroups j hj
  have hown := hsame j hj rfl
  rw [hown, Option.getD_some] at hnonneg
  rw [exceeds, hown, Option.any_some, decide_eq_false_iff_not, not_lt]
  cases hgroup : j.groupId with
  | none => exact hnonneg
  | some group =>
    rw [countAfter]
    split
    · exact hnonneg
    · obtain ⟨k, hk, hkgroup, hle⟩ := exists_last_chosen hgroups hj hgroup
      have hlimits := Option.some.inj (hown.symm.trans (hsame k hk (hgroup.trans hkgroup.symm)))
      push_cast
      omega

end OneLimit

section Tiers

/-- Five jobs of an enterprise tenant may run, one of another. -/
def enterprise : GroupConcurrency := { default := 1, tiers := some [("enterprise", 5)] }

/-- A batch of two. -/
def tiersBatch : FetchOptions :=
  { name := "q", policy := .standard, limit := 2, groupConcurrency := some enterprise }

/-- Two jobs of a tenant wait, one sent before the tenant got its tier. -/
def upgraded : Database := { jobs := [tenantJob 1, { tenantJob 2 with groupTier := some "enterprise" }] }

/-- With both of the tier. -/
def bothEnterprise : Database :=
  { jobs := [{ tenantJob 1 with groupTier := some "enterprise" }, { tenantJob 2 with groupTier := some "enterprise" }] }

/-- The statement claims both jobs, and the recount gives the first back, whichever order they come in. -/
theorem upgraded_givesBack : upgraded.Allowed ∧ ∃ db' claimed,
    fetchNextJob 1 (fun _ => 0) [] tiersBatch upgraded = .ok (db', claimed) ∧ claimed.map Job.id = [1, 2] ∧
      recount tiersBatch claimed db' = [1] ∧ recount tiersBatch claimed.reverse db' = [1] :=
  ⟨⟨by decide, by decide⟩, _, _, rfl, rfl, by decide, by decide⟩

theorem fetch_keeps_iff_enterprise : ∃ db' claimed,
    fetchNextJob 1 (fun _ => 0) [] tiersBatch bothEnterprise = .ok (db', claimed) ∧ claimed.map Job.id = [1, 2] ∧
      fetchReturn "q" claimed (recount tiersBatch claimed db') db' = (db', claimed) := by
  refine ⟨_, _, rfl, rfl, ((fetch_keeps_iff 1 (fun _ => 0) [] tiersBatch bothEnterprise _ _ _ ⟨by decide, by decide⟩ rfl
    (List.Perm.refl _)).mpr ?_).2⟩
  refine chosenWithin_of_oneLimit fun g hg => ?_
  obtain rfl := Option.some.inj hg
  decide

end Tiers

end PgBoss
