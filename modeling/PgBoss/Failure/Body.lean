import PgBoss.Plans.Fail

/-!
# What the failure statement leaves

The rows of a table after `failJobsBody`: the rows it did not select, one retry row for each
deleted row whose first re-insert was accepted, one failed row for each deleted row whose id
no accepted row has, and the dead letter copies. Constraints of the table survive.
-/

namespace PgBoss

open Relational

variable {i : FailInput} {select : Job → Bool} {db db' : Database} {res : List Job}

/-- The rows a statement does not select. -/
def Database.kept (db : Database) (select : Job → Bool) : List Job := db.jobs.filter fun j => !select j

/-- The deleted rows whose first re-insert is accepted. -/
def acceptedRetries (i : FailInput) (select : Job → Bool) (db : Database) : List Job :=
  (retriedJobs i db.jobs (db.jobs.filter select)).2

/-- The deleted rows the second insert takes. -/
def insertedFailures (i : FailInput) (select : Job → Bool) (db : Database) : List Job :=
  failedJobs (db.jobs.filter select) (acceptedRetries i select db)

/-- The dead letter copies of the statement. -/
def deadLetterCopies (i : FailInput) (select : Job → Bool) (db : Database) : List Job :=
  dlqJobs i db (failResults i (acceptedRetries i select db) (insertedFailures i select db))

@[simp] theorem retryRow_jobKey (i : FailInput) (j : Job) : (retryRow i j).jobKey = j.jobKey := rfl
@[simp] theorem retryRow_name (i : FailInput) (j : Job) : (retryRow i j).name = j.name := rfl
@[simp] theorem retryRow_id (i : FailInput) (j : Job) : (retryRow i j).id = j.id := rfl
@[simp] theorem retryRow_policy (i : FailInput) (j : Job) : (retryRow i j).policy = j.policy := rfl
@[simp] theorem retryRow_singletonKey (i : FailInput) (j : Job) :
    (retryRow i j).singletonKey = j.singletonKey := rfl
@[simp] theorem retryRow_slotKey (i : FailInput) (j : Job) : (retryRow i j).slotKey = j.slotKey := rfl
@[simp] theorem retryRow_singletonOn (i : FailInput) (j : Job) :
    (retryRow i j).singletonOn = j.singletonOn := rfl
@[simp] theorem retryRow_upsertByKey (i : FailInput) (j : Job) : (retryRow i j).upsertByKey = false := rfl
@[simp] theorem retryRow_state (i : FailInput) (j : Job) :
    (retryRow i j).state = if canRetry i j then .retry else .failed := rfl
@[simp] theorem retryRow_deadLetter (i : FailInput) (j : Job) :
    (retryRow i j).deadLetter = j.deadLetter := rfl
@[simp] theorem failedRow_jobKey (i : FailInput) (j : Job) : (failedRow i j).jobKey = j.jobKey := rfl
@[simp] theorem failedRow_name (i : FailInput) (j : Job) : (failedRow i j).name = j.name := rfl
@[simp] theorem failedRow_policy (i : FailInput) (j : Job) : (failedRow i j).policy = j.policy := rfl
@[simp] theorem failedRow_singletonKey (i : FailInput) (j : Job) :
    (failedRow i j).singletonKey = j.singletonKey := rfl
@[simp] theorem failedRow_slotKey (i : FailInput) (j : Job) : (failedRow i j).slotKey = j.slotKey := rfl
@[simp] theorem failedRow_singletonOn (i : FailInput) (j : Job) :
    (failedRow i j).singletonOn = j.singletonOn := rfl
@[simp] theorem failedRow_upsertByKey (i : FailInput) (j : Job) : (failedRow i j).upsertByKey = false := rfl
@[simp] theorem failedRow_state (i : FailInput) (j : Job) : (failedRow i j).state = .failed := rfl
@[simp] theorem failedRow_deadLetter (i : FailInput) (j : Job) :
    (failedRow i j).deadLetter = j.deadLetter := rfl

/-- The first re-insert is neither created nor active. -/
theorem retryRow_state_ne (i : FailInput) (j : Job) :
    (retryRow i j).state ≠ .created ∧ (retryRow i j).state ≠ .active := by
  rw [retryRow_state]; split <;> simp

theorem keyStrictFifoCheck_congr {a b : Job} (hpolicy : a.policy = b.policy)
    (hkey : a.singletonKey = b.singletonKey) : keyStrictFifoCheck a = keyStrictFifoCheck b := by
  rw [keyStrictFifoCheck, keyStrictFifoCheck, hpolicy, hkey]

/-- A dead letter copy has no policy, so the key check says nothing about it. -/
theorem deadLetterRow_check (i : FailInput) (j r : Job) (q : Queue) :
    keyStrictFifoCheck (deadLetterRow i j r q) = true := rfl

/-- A dead letter copy is in no policy or throttle index: it can clash by primary key alone. -/
theorem deadLetterRow_clash {i : FailInput} {j r : Job} {q : Queue} {b : Job}
    (h : clashes jobIndexes (deadLetterRow i j r q) b = true) : q.name = b.name ∧ i.newId j = b.id := by
  rcases jobs_clash_iff.mp h with h | h | h | h | h | h | h | h
  · exact Prod.mk.inj (primaryKey_clash.mp h)
  · exact absurd (jobI1_clash.mp h).1.2 (by simp [deadLetterRow])
  · exact absurd (jobI2_clash.mp h).1.2 (by simp [deadLetterRow])
  · exact absurd (jobI3_clash.mp h).1.2 (by simp [deadLetterRow])
  · exact absurd (jobI4_clash.mp h).2.2.1 (by simp [deadLetterRow])
  · exact absurd (jobI6_clash.mp h).1.2 (by simp [deadLetterRow])
  · exact absurd (jobI8_clash.mp h).1.2 (by simp [deadLetterRow])
  · exact absurd (jobI13_clash.mp h).1.2 (by simp [deadLetterRow])

section Retried

/-- Every accepted row is one of the deleted ones, in scan order. -/
theorem retriedJobs_sublist (i : FailInput) (rows deleted : List Job) :
    (retriedJobs i rows deleted).2.Sublist deleted := by
  induction deleted generalizing rows with
  | nil => exact List.Sublist.refl _
  | cons j rest ih =>
    rw [retriedJobs]
    split
    · exact (ih _).cons j
    · exact (ih _).cons_cons j

/-- Once every selected row is deleted, the table holds the other rows and the accepted retries. -/
theorem retriedJobs_perm (i : FailInput) {rows kept deleted : List Job}
    (h : rows.Perm (kept ++ deleted)) :
    (retriedJobs i rows deleted).1.Perm (kept ++ (retriedJobs i rows deleted).2.map (retryRow i)) := by
  induction deleted generalizing rows kept with
  | nil => simpa [retriedJobs] using h
  | cons j rest ih =>
    have herase : (rows.erase j).Perm (kept ++ rest) := by
      have hcons := (h.trans List.perm_middle).erase j
      rwa [List.erase_cons_head] at hcons
    simp only [retriedJobs]
    split
    · exact ih herase
    · have hnext : (rows.erase j ++ [retryRow i j]).Perm ((kept ++ [retryRow i j]) ++ rest) := by
        refine (herase.append_right _).trans ?_
        simpa using (@List.perm_append_comm _ rest [retryRow i j]).append_left kept
      simpa using ih hnext

theorem retriedJobs_consistent (i : FailInput) {rows : List Job} (h : Consistent jobIndexes rows)
    (deleted : List Job) : Consistent jobIndexes (retriedJobs i rows deleted).1 := by
  induction deleted generalizing rows with
  | nil => exact h
  | cons j rest ih =>
    have herase : Consistent jobIndexes (rows.erase j) := h.sublist List.erase_sublist
    simp only [retriedJobs]
    split
    · exact ih herase
    · rename_i hfree
      exact ih (herase.concat (by simpa using hfree))

end Retried

theorem filter_perm_kept (db : Database) (select : Job → Bool) :
    db.jobs.Perm (db.kept select ++ db.jobs.filter select) :=
  ((List.perm_append_comm).trans (List.filter_append_perm select db.jobs)).symm

theorem acceptedRetries_sublist : (acceptedRetries i select db).Sublist (db.jobs.filter select) :=
  retriedJobs_sublist _ _ _

theorem acceptedRetries_mem {j : Job} (h : j ∈ acceptedRetries i select db) :
    j ∈ db.jobs ∧ select j = true := List.mem_filter.mp (acceptedRetries_sublist.mem h)

theorem insertedFailures_mem {j : Job} : j ∈ insertedFailures i select db ↔
    (j ∈ db.jobs ∧ select j = true) ∧ j.id ∉ (acceptedRetries i select db).map Job.id := by
  rw [insertedFailures, failedJobs, List.mem_filter, List.mem_filter, decide_eq_true_eq]

/-- A dead letter copy belongs to a selected job that was re-inserted as failed. -/
theorem deadLetterCopies_mem {c : Job} (h : c ∈ deadLetterCopies i select db) :
    ∃ j q, ∃ r, (j ∈ acceptedRetries i select db ∧ r = retryRow i j ∨
        j ∈ insertedFailures i select db ∧ r = failedRow i j) ∧
      r.state = .failed ∧ db.deadLetterQueue r = some q ∧ c = deadLetterRow i j r q := by
  obtain ⟨⟨j, r⟩, hmem, hrow⟩ := List.mem_filterMap.mp h
  by_cases hstate : r.state = .failed
  · simp only [hstate, if_true] at hrow
    obtain ⟨q, hq, rfl⟩ := Option.map_eq_some_iff.mp hrow
    refine ⟨j, q, r, ?_, hstate, hq, rfl⟩
    rcases List.mem_append.mp hmem with hmem | hmem
    · obtain ⟨k, hk, heq⟩ := List.mem_map.mp hmem
      obtain ⟨rfl, rfl⟩ := Prod.mk.inj heq
      exact .inl ⟨hk, rfl⟩
    · obtain ⟨k, hk, heq⟩ := List.mem_map.mp hmem
      obtain ⟨rfl, rfl⟩ := Prod.mk.inj heq
      exact .inr ⟨hk, rfl⟩
  · simp [hstate] at hrow

/-- The rows of the table after the statement, and that it touches nothing but jobs. -/
theorem failJobsBody_ok (h : failJobsBody i select db = .ok (db', res)) :
    db'.jobs.Perm (db.kept select ++ (acceptedRetries i select db).map (retryRow i) ++
        (insertedFailures i select db).map (failedRow i) ++ deadLetterCopies i select db) ∧
      (db.Allowed → Consistent jobIndexes db'.jobs) ∧ db'.queues = db.queues ∧
      db'.dependencies = db.dependencies ∧
      res = (failResults i (acceptedRetries i select db) (insertedFailures i select db)).map Prod.snd := by
  simp only [failJobsBody] at h
  split at h
  · contradiction
  rename_i rows hrows
  split at h
  · contradiction
  rename_i jobs hjobs
  simp only [Except.ok.injEq, Prod.mk.injEq] at h
  obtain ⟨rfl, rfl⟩ := h
  refine ⟨?_, ?_, rfl, rfl, rfl⟩
  · have htable := retriedJobs_perm i (filter_perm_kept db select)
    rw [insertOrRaise_eq_some hjobs, insertOrRaise_eq_some hrows]
    exact (htable.append_right _).append_right _
  · intro hdb
    exact insertOrRaise_consistent
      (insertOrRaise_consistent (retriedJobs_consistent i hdb.consistent _) hrows) hjobs

/-- Where a row of the table after the statement comes from. -/
theorem failJobsBody_mem (h : failJobsBody i select db = .ok (db', res)) {r : Job} :
    r ∈ db'.jobs ↔ (r ∈ db.jobs ∧ select r = false) ∨
      (∃ j ∈ acceptedRetries i select db, r = retryRow i j) ∨
      (∃ j ∈ insertedFailures i select db, r = failedRow i j) ∨ r ∈ deadLetterCopies i select db := by
  rw [(failJobsBody_ok h).1.mem_iff]
  simp only [List.mem_append, List.mem_map, Database.kept, List.mem_filter, Bool.not_eq_true', or_assoc,
    eq_comm (a := r)]

/-- The constraints of the table survive the statement. -/
theorem failJobsBody_allowed (hdb : db.Allowed) (h : failJobsBody i select db = .ok (db', res)) :
    db'.Allowed := by
  refine ⟨(failJobsBody_ok h).2.1 hdb, fun r hr => ?_⟩
  rcases (failJobsBody_mem h).mp hr with ⟨hr, -⟩ | ⟨j, hj, rfl⟩ | ⟨j, hj, rfl⟩ | hc
  · exact hdb.check r hr
  · exact (keyStrictFifoCheck_congr rfl rfl).trans (hdb.check j (acceptedRetries_mem hj).1)
  · exact (keyStrictFifoCheck_congr rfl rfl).trans (hdb.check j (insertedFailures_mem.mp hj).1.1)
  · obtain ⟨j, q, r, -, -, -, rfl⟩ := deadLetterCopies_mem hc
    exact deadLetterRow_check i j r q

end PgBoss
