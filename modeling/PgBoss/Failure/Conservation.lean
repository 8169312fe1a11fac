import PgBoss.Failure.Body

/-!
# No job is lost by the failure statement

The claim of the one-statement path is that each selected job is in the table exactly once
afterwards, as its retry or as failed, that the other rows stay, and that what is new is at
most one dead letter copy for each job that ended failed.

`failed_jobs` takes the deleted rows whose id is not among the retried ids, and an id alone
does not name a job: two queues of one table may use the same one. A job whose retry was
refused is dropped when a job of another queue with its id was retried in the same batch.
Among active jobs a retry is refused only in a `stately` queue whose retry slot is taken, so
this is the one way the sweeps lose a job; `fail()` names one queue and loses none.
-/

namespace PgBoss

open Relational

/-- Every selected job is kept as its retry row or its failed row, and nothing else changes but
for the dead letter copies. -/
structure Conserved (i : FailInput) (select : Job → Bool) (db db' : Database) : Prop where
  selected : ∀ j ∈ db.jobs, select j = true →
    ∃ r, (db'.jobs.filter fun k => decide (k.jobKey = j.jobKey)) = [r] ∧
      (r = retryRow i j ∨ r = failedRow i j)
  unselected : ∀ j ∈ db.jobs, select j = false →
    (db'.jobs.filter fun k => decide (k.jobKey = j.jobKey)) = [j]
  copied : ∀ c ∈ db'.jobs, c.jobKey ∉ db.jobs.map Job.jobKey →
    ∃ j ∈ db.jobs, select j = true ∧ ∃ r ∈ db'.jobs, r.jobKey = j.jobKey ∧ r.state = .failed ∧
      ∃ q, db.deadLetterQueue r = some q ∧ c = deadLetterRow i j r q
  copied_once : ∀ c ∈ db'.jobs, c.jobKey ∉ db.jobs.map Job.jobKey → ∀ c' ∈ db'.jobs,
    c'.jobKey ∉ db.jobs.map Job.jobKey → c.sourceName = c'.sourceName → c.sourceId = c'.sourceId → c = c'

/-- `gen_random_uuid()` repeats no id in use and no id it gave this statement. -/
structure FreshIds (i : FailInput) (select : Job → Bool) (db : Database) : Prop where
  unused : ∀ j ∈ db.jobs, select j = true → ∀ k ∈ db.jobs, k.id ≠ i.newId j
  distinct : ∀ j ∈ db.jobs, select j = true → ∀ k ∈ db.jobs, select k = true →
    i.newId j = i.newId k → j = k

variable {i : FailInput} {select : Job → Bool} {db db' : Database} {res : List Job}

section Partition

/-- A selected job that was neither retried nor failed was dropped for another job's id. -/
theorem accepted_or_failed {j : Job} (hj : j ∈ db.jobs) (hs : select j = true) :
    j ∈ acceptedRetries i select db ∨ j ∈ insertedFailures i select db ∨
      (j ∉ acceptedRetries i select db ∧ ∃ k ∈ acceptedRetries i select db, k.id = j.id) := by
  by_cases hmem : j ∈ acceptedRetries i select db
  · exact .inl hmem
  by_cases hid : j.id ∈ (acceptedRetries i select db).map Job.id
  · exact .inr (.inr ⟨hmem, List.mem_map.mp hid⟩)
  · exact .inr (.inl (insertedFailures_mem.mpr ⟨⟨hj, hs⟩, hid⟩))

/-- No refused job shares its id with an accepted one. -/
def NoneDropped (i : FailInput) (select : Job → Bool) (db : Database) : Prop :=
  ∀ j ∈ db.jobs, select j = true → j ∉ acceptedRetries i select db →
    ∀ k ∈ acceptedRetries i select db, k.id ≠ j.id

/-- Each row the statement inserted for a job keeps the job's key. -/
theorem reinserted_mem (h : failJobsBody i select db = .ok (db', res)) {j : Job}
    (hj : j ∈ acceptedRetries i select db ∨ j ∈ insertedFailures i select db) :
    ∃ r ∈ db'.jobs, r.jobKey = j.jobKey ∧ (r = retryRow i j ∨ r = failedRow i j) := by
  rcases hj with hj | hj
  · exact ⟨retryRow i j, (failJobsBody_mem h).mpr (.inr (.inl ⟨j, hj, rfl⟩)), rfl, .inl rfl⟩
  · exact ⟨failedRow i j, (failJobsBody_mem h).mpr (.inr (.inr (.inl ⟨j, hj, rfl⟩))), rfl, .inr rfl⟩

/-- A row under a key the table did not have is a dead letter copy. -/
theorem new_row_copy (h : failJobsBody i select db = .ok (db', res)) {c : Job} (hc : c ∈ db'.jobs)
    (hnew : c.jobKey ∉ db.jobs.map Job.jobKey) : c ∈ deadLetterCopies i select db := by
  rcases (failJobsBody_mem h).mp hc with ⟨hc, -⟩ | ⟨j, hj, rfl⟩ | ⟨j, hj, rfl⟩ | hc
  · exact absurd (List.mem_map_of_mem hc) hnew
  · exact absurd (List.mem_map_of_mem (acceptedRetries_mem hj).1) hnew
  · exact absurd (List.mem_map_of_mem (insertedFailures_mem.mp hj).1.1) hnew
  · exact hc

/-- A copy names the job it was made for, which is in the table as failed. -/
theorem copy_source (h : failJobsBody i select db = .ok (db', res)) {c : Job}
    (hc : c ∈ deadLetterCopies i select db) :
    ∃ j ∈ db.jobs, select j = true ∧ ∃ r ∈ db'.jobs, r.jobKey = j.jobKey ∧ r.state = .failed ∧
      (j ∈ acceptedRetries i select db ∧ r = retryRow i j ∨
        j ∈ insertedFailures i select db ∧ r = failedRow i j) ∧
      ∃ q, db.deadLetterQueue r = some q ∧ c = deadLetterRow i j r q := by
  obtain ⟨j, q, r, hrow, hstate, hq, rfl⟩ := deadLetterCopies_mem hc
  rcases hrow with ⟨hj, rfl⟩ | ⟨hj, rfl⟩
  · obtain ⟨hmem, hs⟩ := acceptedRetries_mem hj
    exact ⟨j, hmem, hs, _, (failJobsBody_mem h).mpr (.inr (.inl ⟨j, hj, rfl⟩)), rfl, hstate,
      .inl ⟨hj, rfl⟩, q, hq, rfl⟩
  · obtain ⟨hmem, hs⟩ := (insertedFailures_mem.mp hj).1
    exact ⟨j, hmem, hs, _, (failJobsBody_mem h).mpr (.inr (.inr (.inl ⟨j, hj, rfl⟩))), rfl, hstate,
      .inr ⟨hj, rfl⟩, q, hq, rfl⟩

/-- The statement conserves jobs when it drops none. -/
theorem conserved_of_noneDropped (hdb : db.Allowed) (h : failJobsBody i select db = .ok (db', res))
    (hnone : NoneDropped i select db) : Conserved i select db db' := by
  have hkey : ∀ a b : Job, a.jobKey = b.jobKey → clashes jobIndexes a b = true :=
    fun a b => clashes_of_jobKey
  have hconsistent := (failJobsBody_ok h).2.1 hdb
  refine ⟨fun j hj hs => ?_, fun j hj hs => ?_, fun c hc hnew => ?_, fun c hc hnew c' hc' hnew' hname hid => ?_⟩
  · have hkept : j ∈ acceptedRetries i select db ∨ j ∈ insertedFailures i select db := by
      rcases accepted_or_failed (i := i) hj hs with hmem | hmem | ⟨hmem, k, hk, hid⟩
      · exact .inl hmem
      · exact .inr hmem
      · exact absurd hid (hnone j hj hs hmem k hk)
    obtain ⟨r, hr, hrkey, hrow⟩ := reinserted_mem h hkept
    exact ⟨r, hrkey ▸ hconsistent.filter_eq_singleton hkey hr, hrow⟩
  · exact hconsistent.filter_eq_singleton hkey ((failJobsBody_mem h).mpr (.inl ⟨hj, hs⟩))
  · obtain ⟨j, hj, hs, r, hr, hrkey, hstate, -, q, hq, hrow⟩ := copy_source h (new_row_copy h hc hnew)
    exact ⟨j, hj, hs, r, hr, hrkey, hstate, q, hq, hrow⟩
  · obtain ⟨j, hj, hs, r, hr, hrkey, -, -, q, hq, rfl⟩ := copy_source h (new_row_copy h hc hnew)
    obtain ⟨j', hj', hs', r', hr', hrkey', -, -, q', hq', rfl⟩ := copy_source h (new_row_copy h hc' hnew')
    have hrr : r = r' := hconsistent.eq_of_clashes hr hr'
      (clashes_of_jobKey (Prod.ext (Option.some.inj hname) (Option.some.inj hid)))
    subst hrr
    have hjj : j = j' := hdb.eq_of_jobKey hj hj' (hrkey.symm.trans hrkey')
    rw [hjj, Option.some.inj (hq.symm.trans hq')]

/-- A dropped job is nowhere in the table afterwards, so the statement does not conserve it. -/
theorem noneDropped_of_conserved (hdb : db.Allowed) (hfresh : FreshIds i select db)
    (h : failJobsBody i select db = .ok (db', res)) (hc : Conserved i select db db') :
    NoneDropped i select db := by
  intro j hj hs hrefused k hk hid
  obtain ⟨r, hr, -⟩ := hc.selected j hj hs
  have hr := List.mem_filter.mp (hr ▸ List.mem_singleton_self r)
  have hrkey : r.jobKey = j.jobKey := of_decide_eq_true hr.2
  rcases (failJobsBody_mem h).mp hr.1 with ⟨hmem, hunsel⟩ | ⟨l, hl, rfl⟩ | ⟨l, hl, rfl⟩ | hcopy
  · rw [hdb.eq_of_jobKey hmem hj hrkey, hs] at hunsel
    contradiction
  · exact hrefused (hdb.eq_of_jobKey (acceptedRetries_mem hl).1 hj hrkey ▸ hl)
  · obtain ⟨⟨hlmem, -⟩, hlid⟩ := insertedFailures_mem.mp hl
    exact hlid (hdb.eq_of_jobKey hlmem hj hrkey ▸ hid ▸ List.mem_map_of_mem hk)
  · obtain ⟨l, hl, hls, r', -, -, -, -, q, -, rfl⟩ := copy_source h hcopy
    exact hfresh.unused l hl hls j hj (congrArg Prod.snd hrkey).symm

end Partition

section ActiveOnly

/-- The retry slot of the job is taken: it could retry, its queue is `stately`, and another job
of its key waits to be retried. -/
def retrySlotTaken (i : FailInput) (db : Database) (j : Job) : Bool :=
  canRetry i j && decide (j.policy = some .stately) &&
    db.jobs.any fun k => decide (k.name = j.name ∧ k.state = .retry ∧ k.policy = some .stately ∧
      k.slotKey = j.slotKey)

theorem retrySlotTaken_iff {j : Job} : retrySlotTaken i db j = true ↔
    canRetry i j = true ∧ j.policy = some .stately ∧ ∃ k ∈ db.jobs, k.name = j.name ∧ k.state = .retry ∧
      k.policy = some .stately ∧ k.slotKey = j.slotKey := by
  simp [retrySlotTaken, and_assoc]

/-- An active job's retry row clashes with another job only over the retry slot of its key. -/
theorem retryRow_clash_job {j k : Job} (hj : j.state = .active) (hjk : clashes jobIndexes j k = false)
    (h : clashes jobIndexes (retryRow i j) k = true) :
    canRetry i j = true ∧ j.policy = some .stately ∧ k.name = j.name ∧ k.state = .retry ∧
      k.policy = some .stately ∧ k.slotKey = j.slotKey := by
  have hno : ∀ {p : Prop}, clashes jobIndexes j k = true → p := fun h => by simp [hjk] at h
  rcases jobs_clash_iff.mp h with h | h | h | h | h | h | h | h
  · exact hno (clashes_of_jobKey (primaryKey_clash.mp h))
  · exact absurd (jobI1_clash.mp h).1.1 (retryRow_state_ne i j).1
  · exact absurd (jobI2_clash.mp h).1.1 (retryRow_state_ne i j).2
  · obtain ⟨⟨hs, hp⟩, ⟨hsk, hpk⟩, hname, hstate, hslot⟩ := jobI3_clash.mp h
    rw [retryRow_state] at hs hstate
    by_cases hcan : canRetry i j = true
    · rw [if_pos hcan] at hstate
      exact ⟨hcan, hp, hname.symm, hstate.symm, hpk, hslot.symm⟩
    · simp [if_neg hcan] at hs
  · obtain ⟨-, hk, hsome, hon, hname, hslot⟩ := jobI4_clash.mp h
    exact hno (jobs_clash_iff.mpr (.inr (.inr (.inr (.inr (.inl
      (jobI4_clash.mpr ⟨by simp [hj], hk, hsome, hon, hname, hslot⟩)))))))
  · obtain ⟨⟨-, hp⟩, hk, hname, hslot⟩ := jobI6_clash.mp h
    exact hno (jobs_clash_iff.mpr (.inr (.inr (.inr (.inr (.inr (.inl
      (jobI6_clash.mpr ⟨⟨by simp [hj], hp⟩, hk, hname, hslot⟩))))))))
  · obtain ⟨⟨-, hp⟩, hk, hname, hkey⟩ := jobI8_clash.mp h
    exact hno (jobs_clash_iff.mpr (.inr (.inr (.inr (.inr (.inr (.inr (.inl
      (jobI8_clash.mpr ⟨⟨.inl hj, hp⟩, hk, hname, hkey⟩)))))))))
  · exact absurd (jobI13_clash.mp h).1.2 (by simp)

/-- An active job's failed row clashes with another job only if the job itself does. -/
theorem failedRow_clash_job {j k : Job} (hj : j.state = .active)
    (h : clashes jobIndexes (failedRow i j) k = true) : clashes jobIndexes j k = true := by
  rcases jobs_clash_iff.mp h with h | h | h | h | h | h | h | h
  · exact clashes_of_jobKey (primaryKey_clash.mp h)
  · exact absurd (jobI1_clash.mp h).1.1 (by simp)
  · exact absurd (jobI2_clash.mp h).1.1 (by simp)
  · exact absurd (jobI3_clash.mp h).1.1 (by simp)
  · obtain ⟨-, hk, hsome, hon, hname, hslot⟩ := jobI4_clash.mp h
    exact jobs_clash_iff.mpr (.inr (.inr (.inr (.inr (.inl
      (jobI4_clash.mpr ⟨by simp [hj], hk, hsome, hon, hname, hslot⟩))))))
  · exact absurd (jobI6_clash.mp h).1.1 (by simp)
  · obtain ⟨⟨-, hp⟩, hk, hname, hkey⟩ := jobI8_clash.mp h
    exact jobs_clash_iff.mpr (.inr (.inr (.inr (.inr (.inr (.inr (.inl
      (jobI8_clash.mpr ⟨⟨.inl hj, hp⟩, hk, hname, hkey⟩))))))))
  · exact absurd (jobI13_clash.mp h).1.2 (by simp)

/-- Replacing the second job of a pair by its re-inserted row adds no clash with an active job. -/
theorem clash_reinserted {j k r : Job} (hj : j.state = .active) (hk : k.state = .active)
    (hr : r = retryRow i k ∨ r = failedRow i k) (h : clashes jobIndexes (failedRow i j) r = true) :
    clashes jobIndexes j k = true := by
  have hjr := failedRow_clash_job hj h
  rw [clashes_symm] at hjr ⊢
  rcases hr with rfl | rfl
  · by_contra hne
    have := (retryRow_clash_job hk (by simpa using hne) hjr).2.2.2.1
    simp [hj] at this
  · exact failedRow_clash_job hk hjr

theorem Database.Allowed.nodup (hdb : db.Allowed) : db.jobs.Nodup :=
  hdb.consistent.nodup clashes_self

/-- While active jobs are re-inserted one by one, a retry is refused exactly when its slot was
taken before the statement ran. -/
theorem refused_retryRow {rows : List Job} {j : Job} (hdb : db.Allowed)
    (hrows : ∀ x ∈ rows, x ∈ db.jobs ∨ ∃ k ∈ db.jobs, k.state = .active ∧ k ≠ j ∧ x = retryRow i k)
    (hwait : ∀ k ∈ db.jobs, k.state = .retry → k ∈ rows) (hcons : Consistent jobIndexes rows)
    (hj : j ∈ db.jobs) (hactive : j.state = .active) :
    refused jobIndexes (rows.erase j) (retryRow i j) = retrySlotTaken i db j := by
  have hfree : ∀ k ∈ db.jobs, k ≠ j → clashes jobIndexes j k = false := by
    intro k hk hne
    by_contra hclash
    exact hne (hdb.consistent.eq_of_clashes hj hk (by simpa using hclash)).symm
  rw [Bool.eq_iff_iff, refused_iff, retrySlotTaken_iff]
  constructor
  · rintro ⟨x, hx, hclash⟩
    have hxj : x ≠ j := ((hcons.nodup clashes_self).mem_erase_iff.mp hx).1
    rcases hrows x (List.mem_of_mem_erase hx) with hmem | ⟨k, hk, hkactive, hkj, rfl⟩
    · obtain ⟨hcan, hp, hslot⟩ := retryRow_clash_job hactive (hfree x hmem hxj) hclash
      exact ⟨hcan, hp, x, hmem, hslot⟩
    · -- two active jobs of one key would have clashed already
      have hjk : clashes jobIndexes j (retryRow i k) = false := by
        by_contra hne
        rw [clashes_symm] at hne
        have hkj' : clashes jobIndexes k j = false := clashes_symm jobIndexes j k ▸ hfree k hk hkj
        have := (retryRow_clash_job hkactive hkj' (by simpa using hne)).2.2.2.1
        simp [hactive] at this
      obtain ⟨-, hp, hname, -, hpk, hslot⟩ := retryRow_clash_job hactive hjk hclash
      have : clashes jobIndexes j k = true := jobs_clash_iff.mpr (.inr (.inr (.inr (.inl
        (jobI3_clash.mpr ⟨⟨by simp [hactive], hp⟩, ⟨by simp [hkactive], hpk⟩, hname.symm,
          hactive.trans hkactive.symm, hslot.symm⟩)))))
      simp [hfree k hk hkj] at this
  · rintro ⟨hcan, hp, k, hk, hname, hstate, hpk, hslot⟩
    have hkj : k ≠ j := fun h => by simp [h, hactive] at hstate
    refine ⟨k, (List.mem_erase_of_ne hkj).mpr (hwait k hk hstate), ?_⟩
    refine jobs_clash_iff.mpr (.inr (.inr (.inr (.inl (jobI3_clash.mpr ?_)))))
    simp [hcan, hp, hpk, hstate, hname, hslot]

/-- Among active jobs the accepted retries are those whose slot was free. -/
theorem retriedJobs_active {rows deleted : List Job} (hdb : db.Allowed)
    (hrows : ∀ x ∈ rows, x ∈ db.jobs ∨ ∃ k ∈ db.jobs, k.state = .active ∧ k ∉ deleted ∧ x = retryRow i k)
    (hwait : ∀ k ∈ db.jobs, k.state = .retry → k ∈ rows) (hcons : Consistent jobIndexes rows)
    (hdeleted : ∀ j ∈ deleted, j ∈ db.jobs ∧ j.state = .active) (hnodup : deleted.Nodup) :
    (retriedJobs i rows deleted).2 = deleted.filter fun j => !retrySlotTaken i db j := by
  induction deleted generalizing rows with
  | nil => rfl
  | cons j rest ih =>
    obtain ⟨hj, hactive⟩ := hdeleted j List.mem_cons_self
    obtain ⟨hjrest, hrest⟩ := List.nodup_cons.mp hnodup
    have hkeep : ∀ k ∈ db.jobs, k.state = .retry → k ∈ rows.erase j := by
      intro k hk hstate
      exact (List.mem_erase_of_ne fun h => by simp [h, hactive] at hstate).mpr (hwait k hk hstate)
    have horigin : ∀ x ∈ rows.erase j, x ∈ db.jobs ∨
        ∃ k ∈ db.jobs, k.state = .active ∧ k ∉ rest ∧ x = retryRow i k := by
      intro x hx
      rcases hrows x (List.mem_of_mem_erase hx) with hmem | ⟨k, hk, hka, hknot, rfl⟩
      · exact .inl hmem
      · exact .inr ⟨k, hk, hka, fun h => hknot (List.mem_cons_of_mem _ h), rfl⟩
    have htaken := refused_retryRow (i := i) hdb
      (fun x hx => (hrows x hx).imp id fun ⟨k, hk, hka, hknot, hxk⟩ =>
        ⟨k, hk, hka, fun h => hknot (h ▸ List.mem_cons_self), hxk⟩) hwait hcons hj hactive
    have herase : Consistent jobIndexes (rows.erase j) := hcons.sublist List.erase_sublist
    have hdel : ∀ k ∈ rest, k ∈ db.jobs ∧ k.state = .active :=
      fun k hk => hdeleted k (List.mem_cons_of_mem _ hk)
    simp only [retriedJobs, htaken]
    cases htake : retrySlotTaken i db j with
    | true => simpa [htake] using ih horigin hkeep herase hdel hrest
    | false =>
      rw [htake] at htaken
      have hnext : (retriedJobs i (rows.erase j ++ [retryRow i j]) rest).2 = _ := ih (fun x hx => by
          rcases List.mem_append.mp hx with hx | hx
          · exact horigin x hx
          · exact .inr ⟨j, hj, hactive, hjrest, List.mem_singleton.mp hx⟩)
        (fun k hk hs => List.mem_append_left _ (hkeep k hk hs)) (herase.concat htaken) hdel hrest
      simpa [htake] using hnext

/-- A selection of active jobs only. -/
def ActiveOnly (select : Job → Bool) : Prop := ∀ j, select j = true → j.state = .active

theorem acceptedRetries_active (hdb : db.Allowed) (hsel : ActiveOnly select) :
    acceptedRetries i select db = (db.jobs.filter select).filter fun j => !retrySlotTaken i db j :=
  retriedJobs_active hdb (fun _ hx => .inl hx) (fun _ hk _ => hk) hdb.consistent
    (fun j hj => ⟨(List.mem_filter.mp hj).1, hsel j (List.mem_filter.mp hj).2⟩) (hdb.nodup.filter _)

/-- The failed rows of active jobs find their places free. -/
theorem failed_rows_consistent (hdb : db.Allowed) (hsel : ActiveOnly select) :
    Consistent jobIndexes ((retriedJobs i db.jobs (db.jobs.filter select)).1 ++
      (insertedFailures i select db).map (failedRow i)) := by
  have hactive : ∀ j ∈ insertedFailures i select db, j ∈ db.jobs ∧ j.state = .active :=
    fun j hj => ⟨(insertedFailures_mem.mp hj).1.1, hsel j (insertedFailures_mem.mp hj).1.2⟩
  refine consistent_append.mpr ⟨retriedJobs_consistent i hdb.consistent _, ?_, ?_⟩
  · have hnodup : (insertedFailures i select db).Nodup := (hdb.nodup.filter _).filter _
    refine List.pairwise_map.mpr (hnodup.imp_of_mem fun {a b} ha hb hab => ?_)
    by_contra hclash
    exact hab (hdb.consistent.eq_of_clashes (hactive a ha).1 (hactive b hb).1
      (clash_reinserted (hactive a ha).2 (hactive b hb).2 (.inr rfl) (by simpa using hclash)))
  · intro x hx r hr
    obtain ⟨b, hb, rfl⟩ := List.mem_map.mp hr
    by_contra hclash
    rw [clashes_symm] at hclash
    rcases List.mem_append.mp ((retriedJobs_perm i (filter_perm_kept db select)).mem_iff.mp hx) with hx | hx
    · obtain ⟨hx, hunsel⟩ := List.mem_filter.mp hx
      have := hdb.consistent.eq_of_clashes (hactive b hb).1 hx
        (failedRow_clash_job (hactive b hb).2 (by simpa using hclash))
      simp [← this, (insertedFailures_mem.mp hb).1.2] at hunsel
    · obtain ⟨k, hk, rfl⟩ := List.mem_map.mp hx
      obtain ⟨hkmem, hks⟩ := acceptedRetries_mem (i := i) hk
      have := hdb.consistent.eq_of_clashes (hactive b hb).1 hkmem
        (clash_reinserted (hactive b hb).2 (hsel k hks) (.inl rfl) (by simpa using hclash))
      exact (insertedFailures_mem.mp hb).2 (this ▸ List.mem_map_of_mem hk)

end ActiveOnly

section Total

/-- The jobs the statement re-inserts are selected, and each once. -/
theorem failResults_pairwise (hdb : db.Allowed) :
    (failResults i (acceptedRetries i select db) (insertedFailures i select db)).Pairwise
      (fun a b => a.1 ≠ b.1) := by
  have hnodup : (db.jobs.filter select).Nodup := hdb.nodup.filter _
  refine List.pairwise_append.mpr ⟨?_, ?_, ?_⟩
  · exact List.pairwise_map.mpr (hnodup.sublist acceptedRetries_sublist)
  · exact List.pairwise_map.mpr (hnodup.filter _)
  · rintro a ha b hb heq
    obtain ⟨j, hj, rfl⟩ := List.mem_map.mp ha
    obtain ⟨k, hk, rfl⟩ := List.mem_map.mp hb
    simp only at heq
    exact (insertedFailures_mem.mp hk).2 (heq ▸ List.mem_map_of_mem hj)

theorem failResults_selected {x : Job × Job}
    (h : x ∈ failResults i (acceptedRetries i select db) (insertedFailures i select db)) :
    x.1 ∈ db.jobs ∧ select x.1 = true := by
  rcases List.mem_append.mp h with h | h
  · obtain ⟨j, hj, rfl⟩ := List.mem_map.mp h
    exact acceptedRetries_mem hj
  · obtain ⟨j, hj, rfl⟩ := List.mem_map.mp h
    exact (insertedFailures_mem.mp hj).1

/-- Fresh copies clash with no row whose id the table already had, and not with each other. -/
theorem dlqJobs_consistent (hdb : db.Allowed) (hfresh : FreshIds i select db) {rows : List Job}
    (hrows : Consistent jobIndexes rows) (hids : ∀ r ∈ rows, ∃ k ∈ db.jobs, k.id = r.id) :
    Consistent jobIndexes (rows ++ deadLetterCopies i select db) := by
  refine consistent_append.mpr ⟨hrows, ?_, ?_⟩
  · refine List.pairwise_filterMap.mpr ((failResults_pairwise hdb).imp_of_mem ?_)
    rintro ⟨j, r⟩ ⟨j', r'⟩ hmem hmem' hne c hc c' hc'
    by_contra hclash
    have hcopy : ∀ {j r c : Job}, (if r.state = .failed then
        (db.deadLetterQueue r).map (deadLetterRow i j r) else none) = some c →
        ∃ q, c = deadLetterRow i j r q := by
      intro j r c hc
      split at hc
      · obtain ⟨q, -, rfl⟩ := Option.map_eq_some_iff.mp hc
        exact ⟨q, rfl⟩
      · contradiction
    obtain ⟨q, rfl⟩ := hcopy hc
    obtain ⟨q', rfl⟩ := hcopy hc'
    have hid := (deadLetterRow_clash (by simpa using hclash)).2
    exact hne (hfresh.distinct j (failResults_selected hmem).1 (failResults_selected hmem).2
      j' (failResults_selected hmem').1 (failResults_selected hmem').2 hid)
  · intro r hr c hc
    by_contra hclash
    obtain ⟨j, q, f, hrow, -, -, rfl⟩ := deadLetterCopies_mem hc
    rw [clashes_symm] at hclash
    obtain ⟨k, hk, hkid⟩ := hids r hr
    have hsel : j ∈ db.jobs ∧ select j = true := by
      rcases hrow with ⟨hj, -⟩ | ⟨hj, -⟩
      · exact acceptedRetries_mem hj
      · exact (insertedFailures_mem.mp hj).1
    exact hfresh.unused j hsel.1 hsel.2 k hk
      (hkid.trans (deadLetterRow_clash (by simpa using hclash)).2.symm)

/-- With fresh ids a failure statement over active jobs does not raise. -/
theorem failJobsBody_total (hdb : db.Allowed) (hsel : ActiveOnly select)
    (hfresh : FreshIds i select db) : ∃ db' res, failJobsBody i select db = .ok (db', res) := by
  have hfailed := insertOrRaise_of_consistent (failed_rows_consistent (i := i) hdb hsel)
  have hids : ∀ r ∈ (retriedJobs i db.jobs (db.jobs.filter select)).1 ++
      (insertedFailures i select db).map (failedRow i), ∃ k ∈ db.jobs, k.id = r.id := by
    intro r hr
    rcases List.mem_append.mp hr with hr | hr
    · rcases List.mem_append.mp ((retriedJobs_perm i (filter_perm_kept db select)).mem_iff.mp hr) with hr | hr
      · exact ⟨r, (List.mem_filter.mp hr).1, rfl⟩
      · obtain ⟨k, hk, rfl⟩ := List.mem_map.mp hr
        exact ⟨k, (acceptedRetries_mem (i := i) hk).1, rfl⟩
    · obtain ⟨k, hk, rfl⟩ := List.mem_map.mp hr
      exact ⟨k, (insertedFailures_mem.mp hk).1.1, rfl⟩
  have hcopies := insertOrRaise_of_consistent
    (dlqJobs_consistent (i := i) hdb hfresh (failed_rows_consistent hdb hsel) hids)
  cases hrun : failJobsBody i select db with
  | ok out => exact ⟨out.1, out.2, rfl⟩
  | error e =>
    simp only [failJobsBody] at hrun
    split at hrun
    · rename_i hnone
      exact absurd (hnone.symm.trans hfailed) (by simp)
    rename_i rows hrows
    have hrows := Option.some.inj (hrows.symm.trans hfailed)
    split at hrun
    · rename_i hnone
      exact absurd ((hrows ▸ hnone).symm.trans hcopies) (by simp)
    · contradiction

end Total

/-- A call on one queue selects jobs of that queue, and a sweep selects active jobs. -/
theorem FailCall.selects_cases (c : FailCall) (now : Timestamp) (db : Database) :
    (∃ name, ∀ j, c.selects now db j = true → j.name = name) ∨ ActiveOnly (c.selects now db) := by
  cases c with
  | fail name ids attempts =>
    refine .inl ⟨name, fun j hj => ?_⟩
    simp only [FailCall.selects, failSelects, named, Bool.and_eq_true, decide_eq_true_eq] at hj
    exact hj.1.1.1
  | failWithOutputs name items terminal =>
    refine .inl ⟨name, fun j hj => ?_⟩
    simp only [FailCall.selects, failItemSelects, Bool.and_eq_true, decide_eq_true_eq] at hj
    exact hj.1
  | expire kind table queues limit =>
    refine .inr fun j hj => ?_
    simp only [FailCall.selects, expirySelects, Expiry.predicate, Bool.and_eq_true, decide_eq_true_eq] at hj
    exact hj.1.1.1.2

/-- Two selected jobs share an id, and the retry slot of one of them is taken while the other's
is not. -/
def SharesIdWithRefused (i : FailInput) (select : Job → Bool) (db : Database) : Prop :=
  ∃ j ∈ db.jobs, select j = true ∧ retrySlotTaken i db j = true ∧
    ∃ k ∈ db.jobs, select k = true ∧ retrySlotTaken i db k = false ∧ k.id = j.id

/-- Among jobs of one queue an id names one job, so none is dropped. -/
theorem noneDropped_of_one_queue (hdb : db.Allowed) {name : String}
    (hname : ∀ j, select j = true → j.name = name) : NoneDropped i select db := by
  intro j hj hs hrefused k hk hid
  obtain ⟨hkmem, hks⟩ := acceptedRetries_mem hk
  have hkj := hdb.eq_of_jobKey hkmem hj (Prod.ext ((hname k hks).trans (hname j hs).symm) hid)
  exact hrefused (hkj ▸ hk)

/-- Among active jobs one is dropped exactly when a slot that was taken meets a shared id. -/
theorem noneDropped_active (hdb : db.Allowed) (hsel : ActiveOnly select) :
    NoneDropped i select db ↔ ¬ SharesIdWithRefused i select db := by
  have hmem : ∀ j, j ∈ acceptedRetries i select db ↔
      (j ∈ db.jobs ∧ select j = true) ∧ retrySlotTaken i db j = false := by
    intro j
    rw [acceptedRetries_active hdb hsel, List.mem_filter, List.mem_filter, Bool.not_eq_true']
  constructor
  · rintro hnone ⟨j, hj, hs, htaken, k, hk, hks, hfree, hid⟩
    have hrefused : j ∉ acceptedRetries i select db := fun h => by
      simpa [htaken] using ((hmem j).mp h).2
    exact hnone j hj hs hrefused k ((hmem k).mpr ⟨⟨hk, hks⟩, hfree⟩) hid
  · intro hshare j hj hs hrefused k hk hid
    obtain ⟨⟨hkmem, hks⟩, hfree⟩ := (hmem k).mp hk
    refine hshare ⟨j, hj, hs, ?_, k, hkmem, hks, hfree, hid⟩
    by_contra htaken
    exact hrefused ((hmem j).mpr ⟨⟨hj, hs⟩, by simpa using htaken⟩)

/-- In one queue no id is shared. -/
theorem not_sharesId_of_one_queue (hdb : db.Allowed) {name : String}
    (hname : ∀ j, select j = true → j.name = name) : ¬ SharesIdWithRefused i select db := by
  rintro ⟨j, hj, hs, htaken, k, hk, hks, hfree, hid⟩
  rw [hdb.eq_of_jobKey hk hj (Prod.ext ((hname k hks).trans (hname j hs).symm) hid), htaken] at hfree
  contradiction

/-- A failure call drops no job exactly when no two jobs it selects share an id with one retry
slot taken. -/
theorem FailCall.noneDropped_iff (c : FailCall) (hdb : db.Allowed) :
    NoneDropped (c.input i) (c.selects i.now db) db ↔
      ¬ SharesIdWithRefused (c.input i) (c.selects i.now db) db := by
  rcases c.selects_cases i.now db with ⟨name, hname⟩ | hactive
  · exact iff_of_true (noneDropped_of_one_queue hdb hname) (not_sharesId_of_one_queue hdb hname)
  · exact noneDropped_active hdb hactive

/-- A failure call that returns conserves jobs unless two jobs it selects share an id and the
retry slot of one is taken; and with fresh copy ids, a call with two such jobs loses one. -/
theorem failure_conserves_iff (c : FailCall) (i : FailInput) (db : Database) (hdb : db.Allowed) :
    (¬ SharesIdWithRefused (c.input i) (c.selects i.now db) db → ∀ db' res,
        c.run i db = .ok (db', res) → Conserved (c.input i) (c.selects i.now db) db db') ∧
      (FreshIds (c.input i) (c.selects i.now db) db →
        (∀ db' res, c.run i db = .ok (db', res) → Conserved (c.input i) (c.selects i.now db) db db') →
        ¬ SharesIdWithRefused (c.input i) (c.selects i.now db) db) := by
  rw [← c.noneDropped_iff hdb]
  refine ⟨fun hnone db' res hrun => ?_, fun hfresh hconserves => ?_⟩
  · exact conserved_of_noneDropped hdb (c.run_eq i db ▸ hrun) hnone
  · rcases c.selects_cases i.now db with ⟨name, hname⟩ | hactive
    · exact noneDropped_of_one_queue hdb hname
    · obtain ⟨db', res, hrun⟩ := failJobsBody_total hdb hactive hfresh
      exact noneDropped_of_conserved hdb hfresh hrun (hconserves db' res (c.run_eq i db ▸ hrun))

section SharedId

/-- A queue of the shared table that keeps one job per state. -/
def statelyQueue (name : String) : Queue where
  name := name
  policy := .stately
  retryLimit := 2
  retryDelay := 0
  retryBackoff := false
  retryDelayMax := none
  expireSeconds := 900
  retentionSeconds := 1209600
  deletionSeconds := 604800
  deadLetter := none
  heartbeatSeconds := none

/-- A job of such a queue, started at the epoch if it is active. -/
def statelyJob (name : String) (id : Uuid) (state : JobState) : Job where
  id := id
  name := name
  state := state
  startAfter := 0
  createdOn := 0
  startedOn := some 0
  keepUntil := 0
  policy := some .stately

/-- Two queues run a job of one id, and `"b"` already has a job waiting to be retried. -/
def sharedIdDatabase : Database where
  jobs := [statelyJob "a" 1 .active, statelyJob "b" 1 .active, statelyJob "b" 2 .retry]
  queues := [statelyQueue "a", statelyQueue "b"]

/-- A sweep of both queues after an hour. -/
def sharedIdSweep : FailCall := .expire .timeout "job_common" ["a", "b"] 100

/-- What the sweep draws. -/
def sharedIdInput : FailInput where
  now := seconds 3600
  random := fun _ => 0
  newId := fun j => if j.name = "a" then 10 else 11
  output := fun _ => none

theorem sharedIdDatabase_allowed : sharedIdDatabase.Allowed := ⟨by decide, by decide⟩

/-- The sweep deletes the timed out job of `"b"` and inserts it nowhere. -/
theorem sharedIdSweep_loses : sharedIdDatabase.Allowed ∧
    sharedIdSweep.selects sharedIdInput.now sharedIdDatabase (statelyJob "b" 1 .active) = true ∧
    ∃ db' res, sharedIdSweep.run sharedIdInput sharedIdDatabase = .ok (db', res) ∧
      ¬ Conserved (sharedIdSweep.input sharedIdInput)
        (sharedIdSweep.selects sharedIdInput.now sharedIdDatabase) sharedIdDatabase db' := by
  refine ⟨sharedIdDatabase_allowed, by decide, _, _, rfl, fun hc => ?_⟩
  obtain ⟨r, hr, -⟩ := hc.selected (statelyJob "b" 1 .active) (by decide) (by decide)
  have hone : _ = 1 := congrArg List.length hr
  exact absurd hone (by decide)

/-- The theorem at two states: the same sweep without the waiting job keeps both jobs, and with it
the sweep does not. -/
theorem failure_conserves_iff_sweeps :
    (∀ db' res, sharedIdSweep.run sharedIdInput { sharedIdDatabase with
        jobs := [statelyJob "a" 1 .active, statelyJob "b" 1 .active] } = .ok (db', res) →
      Conserved (sharedIdSweep.input sharedIdInput) (sharedIdSweep.selects sharedIdInput.now
        { sharedIdDatabase with jobs := [statelyJob "a" 1 .active, statelyJob "b" 1 .active] })
        { sharedIdDatabase with jobs := [statelyJob "a" 1 .active, statelyJob "b" 1 .active] } db') ∧
    ¬ ∀ db' res, sharedIdSweep.run sharedIdInput sharedIdDatabase = .ok (db', res) →
      Conserved (sharedIdSweep.input sharedIdInput)
        (sharedIdSweep.selects sharedIdInput.now sharedIdDatabase) sharedIdDatabase db' := by
  refine ⟨(failure_conserves_iff _ _ _ ⟨by decide, by decide⟩).1 ?_, fun h => ?_⟩
  · unfold SharesIdWithRefused; decide
  · refine (failure_conserves_iff _ _ _ sharedIdDatabase_allowed).2 ⟨by decide, by decide⟩ h ?_
    unfold SharesIdWithRefused; decide

end SharedId

end PgBoss
