import PgBoss.Plans.Fetch

/-!
# What the claiming statement selects

The rows the UPDATE of `fetchNextJob` sets are the chosen candidates and no others: waiting,
unblocked rows of the queue, at most `limit` of them, at most one for each `singleton_key` in
a ranked batch, and on a `key_strict_fifo` queue the heads of keys nobody holds.
-/

namespace PgBoss

open Relational

variable {now : Timestamp} {rank : Job → ℕ} {locked : List JobKey} {o : FetchOptions} {db db' : Database}
  {claimed : List Job} {a b j : Job}

section Claim

@[simp] theorem claimSet_jobKey (now : Timestamp) (j : Job) : (claimSet now j).jobKey = j.jobKey := rfl
@[simp] theorem claimSet_name (now : Timestamp) (j : Job) : (claimSet now j).name = j.name := rfl
@[simp] theorem claimSet_id (now : Timestamp) (j : Job) : (claimSet now j).id = j.id := rfl
@[simp] theorem claimSet_state (now : Timestamp) (j : Job) : (claimSet now j).state = .active := rfl
@[simp] theorem claimSet_policy (now : Timestamp) (j : Job) : (claimSet now j).policy = j.policy := rfl
@[simp] theorem claimSet_singletonKey (now : Timestamp) (j : Job) :
    (claimSet now j).singletonKey = j.singletonKey := rfl
@[simp] theorem claimSet_slotKey (now : Timestamp) (j : Job) : (claimSet now j).slotKey = j.slotKey := rfl
@[simp] theorem claimSet_singletonOn (now : Timestamp) (j : Job) :
    (claimSet now j).singletonOn = j.singletonOn := rfl
@[simp] theorem claimSet_startedOn (now : Timestamp) (j : Job) :
    (claimSet now j).startedOn = some now := rfl

end Claim

section Candidates

/-- What makes a row a candidate. -/
theorem fetchEligible_iff : fetchEligible now o db j = true ↔
    j.name = o.name ∧ j.state < .active ∧ j.blocked = false ∧ startable now o j = true ∧
      (o.policy = .keyStrictFifo → j.id ∈ (strictFifoHeads now o db).map Job.id ∧
        strictFifoBlocked db j = false) ∧
      (o.singletonPolicy = true → singletonProbe o db j = false) ∧
      fetchFilters o j = true ∧ groupConcurrencyFilter o db j = true := by
  by_cases hp : o.policy = .keyStrictFifo <;> by_cases hs : o.singletonPolicy = true <;>
    simp [fetchEligible, hp, hs, and_assoc]

theorem fetchNext_mem (h : j ∈ fetchNext now locked o db) :
    j ∈ db.jobs ∧ fetchEligible now o db j = true ∧ j.jobKey ∉ locked := by
  have hfilter := List.mem_filter.mp (List.mem_of_mem_take h)
  have hmem := List.mem_filter.mp ((List.perm_insertionSort fetchBefore _).mem_iff.mp hfilter.1)
  exact ⟨hmem.1, hmem.2, of_decide_eq_true hfilter.2⟩

theorem fetchNext_length (now : Timestamp) (locked : List JobKey) (o : FetchOptions) (db : Database) :
    (fetchNext now locked o db).length ≤ o.limit := List.length_take_le _ _

/-- The candidates after `singleton_ranking`. -/
def fetchRanked (now : Timestamp) (rank : Job → ℕ) (locked : List JobKey) (o : FetchOptions) (db : Database) :
    List Job :=
  if o.singletonFetch then singletonFirst rank (fetchNext now locked o db) else fetchNext now locked o db

theorem fetchRanked_sublist : (fetchRanked now rank locked o db).Sublist (fetchNext now locked o db) := by
  rw [fetchRanked]
  split
  · exact List.filter_sublist
  · exact List.Sublist.refl _

theorem fetchChosen_sublist :
    (fetchChosen now rank locked o db).Sublist (fetchRanked now rank locked o db) := by
  rw [fetchChosen, ← fetchRanked]
  cases o.groupConcurrency with
  | none => exact List.Sublist.refl _
  | some g => exact List.filter_sublist

theorem fetchChosen_mem (h : j ∈ fetchChosen now rank locked o db) :
    j ∈ db.jobs ∧ fetchEligible now o db j = true ∧ j.jobKey ∉ locked :=
  fetchNext_mem ((fetchChosen_sublist.trans fetchRanked_sublist).mem h)

/-- A ranked batch holds one row for each `singleton_key`, `NULL` included. -/
theorem eq_of_singletonFirst {candidates : List Job} (ha : a ∈ singletonFirst rank candidates)
    (hb : b ∈ singletonFirst rank candidates) (hkey : a.singletonKey = b.singletonKey) : a = b := by
  have hfa := of_decide_eq_true (List.mem_filter.mp ha).2
  have hfb := of_decide_eq_true (List.mem_filter.mp hb).2
  rw [← hkey, hfa] at hfb
  exact Option.some.inj hfb

/-- A batch under a singleton policy holds one row for each `singleton_key`. -/
theorem fetchChosen_singletonKey (hpolicy : o.singletonPolicy = true)
    (ha : a ∈ fetchChosen now rank locked o db) (hb : b ∈ fetchChosen now rank locked o db)
    (hkey : a.singletonKey = b.singletonKey) : a = b := by
  have ha := fetchChosen_sublist.mem ha
  have hb := fetchChosen_sublist.mem hb
  by_cases hbatch : 1 < o.limit
  · have hfetch : o.singletonFetch = true := by simp [FetchOptions.singletonFetch, hbatch, hpolicy]
    rw [fetchRanked, if_pos hfetch] at ha hb
    exact eq_of_singletonFirst ha hb hkey
  · have ha := fetchRanked_sublist.mem ha
    have hb := fetchRanked_sublist.mem hb
    have hlength := (fetchNext_length now locked o db).trans (not_lt.mp hbatch)
    match hnext : fetchNext now locked o db, hlength with
    | [], _ => simp [hnext] at ha
    | [x], _ =>
      rw [hnext, List.mem_singleton] at ha hb
      rw [ha, hb]
    | _ :: _ :: _, hlength => simp at hlength

end Candidates

section Selected

/-- The UPDATE selects the chosen rows. -/
theorem fetchSelects_iff (hdb : db.Allowed) (hj : j ∈ db.jobs) :
    fetchSelects now rank locked o db j = true ↔ j ∈ fetchChosen now rank locked o db := by
  simp only [fetchSelects, Bool.and_eq_true, decide_eq_true_eq, Bool.or_eq_true, Bool.not_eq_true',
    List.mem_map]
  constructor
  · rintro ⟨⟨hname, k, hk, hid⟩, -⟩
    obtain ⟨hkdb, heligible, -⟩ := fetchChosen_mem hk
    have hkname := (fetchEligible_iff.mp heligible).1
    exact hdb.eq_of_jobKey hkdb hj (Prod.ext (hkname.trans hname.symm) hid) ▸ hk
  · intro h
    obtain ⟨-, heligible, -⟩ := fetchChosen_mem h
    obtain ⟨hname, hstate, -⟩ := fetchEligible_iff.mp heligible
    exact ⟨⟨hname, j, h, rfl⟩, .inr hstate⟩

/-- What a fetch returns, and the table it leaves. -/
theorem fetchNextJob_ok (h : fetchNextJob now rank locked o db = .ok (db', claimed)) :
    db'.jobs = db.jobs.map (fun j => if fetchSelects now rank locked o db j then claimSet now j else j) ∧
      db'.queues = db.queues ∧ db'.dependencies = db.dependencies ∧
      claimed = (db.jobs.filter (fetchSelects now rank locked o db)).map (claimSet now) := by
  simp only [fetchNextJob] at h
  split at h
  · contradiction
  · rename_i upd ids hupdate
    simp only [Except.ok.injEq, Prod.mk.injEq] at h
    obtain ⟨rfl, rfl⟩ := h
    obtain ⟨hjobs, hqueues, hdeps, -⟩ := Database.updateWhere_ok hupdate
    exact ⟨hjobs, hqueues, hdeps, rfl⟩

/-- A fetch keeps the constraints. -/
theorem fetchNextJob_allowed (hdb : db.Allowed) (h : fetchNextJob now rank locked o db = .ok (db', claimed)) :
    db'.Allowed := by
  simp only [fetchNextJob] at h
  split at h
  · contradiction
  · rename_i upd ids hupdate
    obtain ⟨rfl, rfl⟩ := Prod.mk.inj (Except.ok.inj h)
    exact Database.updateWhere_allowed (claimSet now) hdb (fun _ => ⟨rfl, rfl⟩) hupdate

/-- Each claimed row is a chosen row with the columns a claim sets, and is in the table. -/
theorem fetchNextJob_claimed (hdb : db.Allowed) (h : fetchNextJob now rank locked o db = .ok (db', claimed))
    {c : Job} (hc : c ∈ claimed) : c ∈ db'.jobs ∧ ∃ j ∈ db.jobs, fetchEligible now o db j = true ∧
      j.jobKey ∉ locked ∧ c = claimSet now j := by
  obtain ⟨hjobs, -, -, rfl⟩ := fetchNextJob_ok h
  obtain ⟨j, hj, rfl⟩ := List.mem_map.mp hc
  obtain ⟨hj, hs⟩ := List.mem_filter.mp hj
  obtain ⟨-, heligible, hlocked⟩ := fetchChosen_mem ((fetchSelects_iff hdb hj).mp hs)
  refine ⟨?_, j, hj, heligible, hlocked, rfl⟩
  rw [hjobs]
  exact List.mem_map.mpr ⟨j, hj, by simp [hs]⟩

/-- A head of its key, as `strict_fifo_heads` has it, is one of the heads. -/
theorem strictFifoHeads_of_id (hdb : db.Allowed) (hj : j ∈ db.jobs) (hname : j.name = o.name)
    (hid : j.id ∈ (strictFifoHeads now o db).map Job.id) : j ∈ strictFifoHeads now o db := by
  obtain ⟨h, hh, hhid⟩ := List.mem_map.mp hid
  have hcandidate := List.mem_filter.mp (List.mem_filter.mp hh).1
  have hhname : h.name = o.name := by
    have := hcandidate.2
    simp only [headCandidate, Bool.and_eq_true, decide_eq_true_eq] at this
    exact this.1.1.1.1
  exact hdb.eq_of_jobKey hcandidate.1 hj (Prod.ext (hhname.trans hname.symm) hhid) ▸ hh

/-- A head goes before every candidate of its key. -/
theorem strictFifoHeads_before (ha : a ∈ strictFifoHeads now o db) (hb : b ∈ db.jobs)
    (hcandidate : headCandidate now o b = true) (hkey : b.singletonKey = a.singletonKey) : headBefore a b := by
  have hall := List.all_eq_true.mp (List.mem_filter.mp ha).2 b (List.mem_filter.mpr ⟨hb, hcandidate⟩)
  simpa [hkey] using hall

theorem headBefore_antisymm (hab : headBefore a b) (hba : headBefore b a) : a.id = b.id := by
  rcases hab with hab | ⟨hs, hab⟩ <;> rcases hba with hba | ⟨hs', hba⟩
  · omega
  · omega
  · omega
  · rcases hab with hc | ⟨hc, hid⟩ <;> rcases hba with hc' | ⟨hc', hid'⟩
    · exact absurd hc' (lt_asymm hc)
    · exact absurd hc' hc.ne'
    · exact absurd hc hc'.ne'
    · exact le_antisymm hid hid'

/-- A key has one head. -/
theorem strictFifoHeads_unique (hdb : db.Allowed) (ha : a ∈ strictFifoHeads now o db)
    (hb : b ∈ strictFifoHeads now o db) (hkey : a.singletonKey = b.singletonKey) : a = b := by
  have hca := List.mem_filter.mp (List.mem_filter.mp ha).1
  have hcb := List.mem_filter.mp (List.mem_filter.mp hb).1
  have hid := headBefore_antisymm (strictFifoHeads_before ha hcb.1 hcb.2 hkey.symm)
    (strictFifoHeads_before hb hca.1 hca.2 hkey)
  have hname : ∀ {x : Job}, headCandidate now o x = true → x.name = o.name := fun h => by
    simp only [headCandidate, Bool.and_eq_true, decide_eq_true_eq] at h
    exact h.1.1.1.1
  exact hdb.eq_of_jobKey hca.1 hcb.1 (Prod.ext ((hname hca.2).trans (hname hcb.2).symm) hid)

end Selected

end PgBoss
