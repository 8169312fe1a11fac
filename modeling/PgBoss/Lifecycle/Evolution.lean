import PgBoss.Lifecycle.Statement
import PgBoss.Fetch.Selection
import PgBoss.Failure.Distributed
import PgBoss.Failure.Redrive

/-!
# What a statement can do to a job

Every row of the tables after a statement is one it added, or comes from a row of the same
name and id: claimed by `fetchNextJob`, restored by `restoreJobs`, or moved by one of the
moves of `Evolves`. Everything proved about runs is derived from this.
-/

namespace PgBoss

open Relational

/-- The moves a statement makes with a job, a claim and a restore apart. `flow` says whether it
may write the flow columns. -/
inductive Evolves (flow : Bool) : Job → Job → Prop
  | same (j : Job) : Evolves flow j j
  | complete (now : Timestamp) (output : Option Json) (includeQueued : Bool) {j : Job}
    (hopen : j.state < .completed) (hactive : includeQueued = false → j.state = .active)
    (hflow : includeQueued = true → flow = true) :
    Evolves flow j (completeSet now output includeQueued j)
  | cancel (now : Timestamp) {j : Job} (hopen : j.state < .completed) :
    Evolves flow j (cancelSet now j)
  | touch (now : Timestamp) {j : Job} (hactive : j.state = .active) : Evolves flow j (touchSet now j)
  | resume (now : Timestamp) {j : Job} (hcancelled : j.state = .cancelled) :
    Evolves flow j (resumeSet now j)
  | retry (now : Timestamp) {j : Job} (hfailed : j.state = .failed) :
    Evolves flow j (retrySet now j)
  | update (now : Timestamp) (o : UpdatePayload) {j : Job} (hwait : j.state < .active) :
    Evolves flow j (updateSet now o j)
  | failRetry (i : FailInput) {j : Job} (hopen : j.state < .completed) : Evolves flow j (retryRow i j)
  | failEnd (i : FailInput) {j : Job} (hopen : j.state < .completed) : Evolves flow j (failedRow i j)
  | reinsertRetry (i : ReinsertInput) {j : Job} (hopen : j.state < .completed) : Evolves flow j (reinsertRetryRow i j)
  | reinsertEnd (i : ReinsertInput) {j : Job} (hopen : j.state < .completed) : Evolves flow j (reinsertFailedRow i j)
  | redriveFail (o : RedriveOptions) (db : Database) {j : Job} (hwait : j.state < .active) :
    Evolves flow j (redriveConflictSet o db j)
  | unblock (now : Timestamp) (n : ℕ) {j : Job} (hblocked : j.blocked = true) (hflow : flow = true) :
    Evolves flow j (unblockSet now n j)
  | clear (j : Job) (hflow : flow = true) : Evolves flow j (clearSet j)

section Moves

variable {flow : Bool} {j r : Job}

theorem Evolves.jobKey (h : Evolves flow j r) : r.jobKey = j.jobKey := by cases h <;> rfl

theorem Evolves.policy (h : Evolves flow j r) : r.policy = j.policy := by cases h <;> rfl

theorem Evolves.singletonKey (h : Evolves flow j r) : r.singletonKey = j.singletonKey := by cases h <;> rfl

/-- No move starts a job or counts a retry, and none makes a job active. -/
theorem Evolves.attempt (h : Evolves flow j r) :
    r.retryCount = j.retryCount ∧ r.startedOn = j.startedOn ∧ (r.state = .active → j.state = .active) := by
  cases h with
  | same | touch | update | unblock | clear => exact ⟨rfl, rfl, id⟩
  | failRetry i hopen => exact ⟨rfl, rfl, fun h => absurd h (retryRow_state_ne i j).2⟩
  | complete | cancel | resume | retry | failEnd | reinsertRetry | reinsertEnd | redriveFail =>
    exact ⟨rfl, rfl, fun h => absurd h (by simp [completeSet, cancelSet, resumeSet, retrySet, failedRow,
      reinsertRetryRow, reinsertFailedRow, redriveConflictSet])⟩

/-- A completed job stays completed. -/
theorem Evolves.completed (h : Evolves flow j r) (hj : j.state = .completed) : r.state = .completed := by
  cases h with
  | same | complete | touch | update | unblock | clear => first | exact hj | rfl
  | cancel _ hopen => simp [hj] at hopen
  | resume _ hcancelled => simp [hj] at hcancelled
  | retry _ hfailed => simp [hj] at hfailed
  | failRetry _ hopen => simp [hj] at hopen
  | failEnd _ hopen => simp [hj] at hopen
  | reinsertRetry _ hopen => simp [hj] at hopen
  | reinsertEnd _ hopen => simp [hj] at hopen
  | redriveFail _ _ hwait => simp [hj] at hwait

/-- A statement that does not write the flow columns leaves them. -/
theorem Evolves.flowColumns (h : Evolves false j r) :
    r.blocked = j.blocked ∧ r.blocking = j.blocking ∧ r.pendingDependencies = j.pendingDependencies := by
  cases h with
  | complete _ _ includeQueued _ _ hflow =>
    cases includeQueued with
    | true => simp at hflow
    | false => exact ⟨rfl, rfl, rfl⟩
  | unblock _ _ _ hflow => simp at hflow
  | clear _ hflow => simp at hflow
  | _ => exact ⟨rfl, rfl, rfl⟩

end Moves

/-- The rows a statement adds to the tables. -/
def Statement.adds (db : Database) : Statement → List Job
  | .insertJobs now name upsertByKey payload =>
    match PgBoss.insertJobs now name upsertByKey payload db with
    | .ok (_, inserted) => inserted
    | .error _ => []
  | .insertFlowJobs now name payload =>
    match PgBoss.insertFlowJobs now name payload db with
    | .ok (_, inserted) => inserted
    | .error _ => []
  | .failJobs i call => deadLetterCopies (call.input i) (call.selects i.now db) db
  | .failDistributed i call =>
    reinsertCopies (call.input i) (call.selected i.now db) (db.without (call.selected i.now db))
  | .redriveJobs o locked => (redriveCandidates o locked db).filterMap fun m =>
      (redriveQueue o db m).map (redriveRow o m)
  | _ => []

/-- Where a row of the tables after a statement comes from. -/
inductive Statement.Origin (s : Statement) (db : Database) (r : Job) : Prop
  | moved {j : Job} (hj : j ∈ db.jobs) (hmove : Evolves s.writesFlow j r)
  | claimed {now : Timestamp} {j : Job} (hj : j ∈ db.jobs) (hwait : j.state < .active)
    (hblocked : j.blocked = false) (hset : r = claimSet now j) (hclaimed : r ∈ s.claimed db)
  | restored {name : String} {ids : List Uuid} {j : Job} (hs : s = .restoreJobs name ids) (hj : j ∈ db.jobs)
    (hnamed : named name ids j = true) (hset : r = restoreSet j)
  | added (hadd : r ∈ s.adds db)

/-- What a statement leaves: the constraints hold, and every row has an origin. -/
structure Statement.Effect (s : Statement) (db db' : Database) : Prop where
  allowed : db'.Allowed
  rows : ∀ r ∈ db'.jobs, s.Origin db r

section Effects

variable {db db' : Database} {s : Statement}

/-- An UPDATE that makes a move with each row it selects. -/
theorem effect_of_update {select : Job → Bool} (set : Job → Job) (hdb : db.Allowed)
    (hmove : ∀ j ∈ db.jobs, select j = true → Evolves s.writesFlow j (set j))
    (hset : ∀ j, (set j).policy = j.policy ∧ (set j).singletonKey = j.singletonKey)
    (h : (db.updateWhere select set).map Prod.fst = .ok db') : s.Effect db db' := by
  obtain ⟨ids, hrun⟩ := map_fst_ok h
  refine ⟨Database.updateWhere_allowed set hdb hset hrun, fun r hr => ?_⟩
  rcases (Database.updateWhere_mem hrun).mp hr with ⟨hr, -⟩ | ⟨j, hj, hs, rfl⟩
  · exact .moved hr (.same r)
  · exact .moved hj (hmove j hj hs)

/-- Leaving the rows alone, or some of them out. -/
theorem effect_of_sublist (hdb : db.Allowed) (hsub : ∀ r ∈ db'.jobs, r ∈ db.jobs)
    (hcons : Consistent jobIndexes db'.jobs) : s.Effect db db' :=
  ⟨⟨hcons, fun j hj => hdb.check j (hsub j hj)⟩, fun r hr => .moved (hsub r hr) (.same r)⟩

/-- An insert adds rows and leaves those there are. -/
theorem effect_of_insert {now : Timestamp} {name : String} {upsertByKey : Bool} {payload : List (JobInsert × Uuid)}
    {rows : List Job} (hdb : db.Allowed) (hrun : insertJobs now name upsertByKey payload db = .ok (db', rows))
    (hadds : s.adds db = rows) : s.Effect db db' := by
  obtain ⟨hjobs, -, -, hallowed, -⟩ := insertJobs_ok hrun
  refine ⟨hallowed hdb, fun r hr => ?_⟩
  rw [hjobs] at hr
  rcases List.mem_append.mp hr with hr | hr
  · exact .moved hr (.same r)
  · exact .added (hadds ▸ hr)

theorem insertFlowJobs_ok {now : Timestamp} {name : String} {payload : List (JobInsert × Uuid)} {inserted : List Job}
    (h : PgBoss.insertFlowJobs now name payload db = .ok (db', inserted)) :
    PgBoss.insertJobs now name false payload db = .ok (db', inserted) := by
  rw [PgBoss.insertFlowJobs] at h
  split at h
  · contradiction
  rename_i out rows hinsert
  split at h
  · exact hinsert.trans h
  · contradiction

theorem failJobs_effect {i : FailInput} {call : FailCall} (hdb : db.Allowed)
    (h : (Statement.failJobs i call).exec db = .ok db') : (Statement.failJobs i call).Effect db db' := by
  obtain ⟨rows, hrun⟩ := map_fst_ok h
  rw [call.run_eq] at hrun
  have hopen : ∀ j, call.selects i.now db j = true → j.state < .completed := by
    intro j hj
    cases call with
    | fail name ids attempts => exact (failSelects_unfinished j hj).2
    | failWithOutputs name items terminal =>
      simp only [FailCall.selects, failItemSelects, attemptFence, Bool.and_eq_true, decide_eq_true_eq] at hj
      simp [hj.2.1]
    | expire kind table queues limit =>
      simp only [FailCall.selects, expirySelects, Expiry.predicate, Bool.and_eq_true, decide_eq_true_eq] at hj
      simp [hj.1.1.1.2]
  refine ⟨failJobsBody_allowed hdb hrun, fun r hr => ?_⟩
  rcases (failJobsBody_mem hrun).mp hr with ⟨hr, -⟩ | ⟨j, hj, rfl⟩ | ⟨j, hj, rfl⟩ | hr
  · exact .moved hr (.same r)
  · exact .moved (acceptedRetries_mem hj).1 (.failRetry _ (hopen j (acceptedRetries_mem hj).2))
  · have hj := (insertedFailures_mem.mp hj).1
    exact .moved hj.1 (.failEnd _ (hopen j hj.2))
  · exact .added hr

theorem failDistributed_effect {i : ReinsertInput} {call : ReinsertCall} (hdb : db.Allowed)
    (h : (Statement.failDistributed i call).exec db = .ok db') :
    (Statement.failDistributed i call).Effect db db' := by
  obtain ⟨count, hrun⟩ := map_fst_ok h
  rw [call.run_eq i hdb] at hrun
  have hsel := call.selection i.now hdb
  have hloop := reinsertFailedJobs_looped hrun
  have hrows : ∀ r ∈ db'.jobs, (∃ j ∈ db.jobs, Evolves false j r) ∨ r ∈ (Statement.failDistributed i call).adds db := by
    intro r hr
    rcases hloop.rows r hr with hr | ⟨j, hj, ⟨rfl, -⟩ | rfl⟩ | hr
    · exact .inl ⟨r, (List.mem_filter.mp hr).1, .same r⟩
    · exact .inl ⟨j, hsel.mem j hj, .reinsertRetry _ (hsel.unfinished j hj)⟩
    · exact .inl ⟨j, hsel.mem j hj, .reinsertEnd _ (hsel.unfinished j hj)⟩
    · exact .inr hr
  refine ⟨⟨hloop.consistent (hdb.consistent.filter _), fun r hr => ?_⟩, fun r hr => ?_⟩
  · rcases hrows r hr with ⟨j, hj, hmove⟩ | hadd
    · exact (keyStrictFifoCheck_congr hmove.policy hmove.singletonKey).trans (hdb.check j hj)
    · obtain ⟨j, -, q, -, rfl⟩ := isCopy_of_mem hadd rfl
      exact deadLetterRow_check _ _ _ q
  · rcases hrows r hr with ⟨j, hj, hmove⟩ | hadd
    · exact .moved hj hmove
    · exact .added hadd

theorem redriveJobs_effect {o : RedriveOptions} {locked : List JobKey} (hdb : db.Allowed)
    (h : (Statement.redriveJobs o locked).exec db = .ok db') : (Statement.redriveJobs o locked).Effect db db' := by
  obtain ⟨n, hrun⟩ := map_fst_ok h
  refine ⟨redriveJobs_allowed hdb hrun, fun r hr => ?_⟩
  rcases redriveJobs_from hdb hrun hr with hr | ⟨j, hj, hwait, rfl⟩ | ⟨m, hm, q, hq, rfl⟩
  · exact .moved hr (.same r)
  · exact .moved hj (.redriveFail o db hwait)
  · exact .added (List.mem_filterMap.mpr ⟨m, hm, by simp [hq]⟩)

/-- What every statement leaves. -/
theorem Statement.exec_effect (s : Statement) (hdb : db.Allowed) (h : s.exec db = .ok db') : s.Effect db db' := by
  cases s with
  | insertJobs now name upsertByKey payload =>
    obtain ⟨rows, hrun⟩ := map_fst_ok h
    exact effect_of_insert hdb hrun (by simp [adds, hrun])
  | insertFlowJobs now name payload =>
    obtain ⟨rows, hrun⟩ := map_fst_ok h
    exact effect_of_insert hdb (insertFlowJobs_ok hrun) (by simp [adds, hrun])
  | fetchNextJob now rank locked o =>
    obtain ⟨rows, hrun⟩ := map_fst_ok h
    obtain ⟨hjobs, -, -, rfl⟩ := fetchNextJob_ok hrun
    refine ⟨fetchNextJob_allowed hdb hrun, fun r hr => ?_⟩
    rw [hjobs] at hr
    obtain ⟨j, hj, rfl⟩ := List.mem_map.mp hr
    by_cases hs : fetchSelects now rank locked o db j = true
    · have heligible := (fetchChosen_mem ((fetchSelects_iff hdb hj).mp hs)).2.1
      obtain ⟨-, hwait, hblocked, -⟩ := fetchEligible_iff.mp heligible
      rw [if_pos hs]
      refine .claimed hj hwait hblocked rfl ?_
      simp only [claimed, hrun]
      exact List.mem_map.mpr ⟨j, List.mem_filter.mpr ⟨hj, hs⟩, rfl⟩
    · exact .moved hj (by rw [if_neg hs]; exact .same j)
  | completeJobs now name ids output includeQueued attempts =>
    refine effect_of_update (completeSet now output includeQueued) hdb (fun j hj hs => ?_) (fun _ => ⟨rfl, rfl⟩) h
    simp only [completeSelects, Bool.and_eq_true] at hs
    cases includeQueued with
    | true =>
      have hopen : j.state < .completed := by simpa only [if_true, decide_eq_true_eq] using hs.1.2
      exact .complete now output true hopen (by simp) (fun _ => rfl)
    | false =>
      have hactive : j.state = .active := by
        simpa only [Bool.false_eq_true, if_false, decide_eq_true_eq] using hs.1.2
      exact .complete now output false (by simp [hactive]) (fun _ => hactive) (by simp)
  | completeJobsWithOutputs now name items =>
    refine effect_of_update (fun j => completeSet now (outputFor items j) false j) hdb (fun j hj hs => ?_) (fun _ => ⟨rfl, rfl⟩) h
    simp only [attemptFence, Bool.and_eq_true, decide_eq_true_eq] at hs
    exact .complete now (outputFor items j) false (by simp [hs.2.1]) (fun _ => hs.2.1) (by simp)
  | cancelJobs now name ids attempts =>
    refine effect_of_update (cancelSet now) hdb (fun j hj hs => .cancel now ?_) (fun _ => ⟨rfl, rfl⟩) h
    simp only [cancelSelects, Bool.and_eq_true, decide_eq_true_eq] at hs
    exact hs.1.2
  | touchJobs now name ids attempts =>
    refine effect_of_update (touchSet now) hdb (fun j hj hs => .touch now ?_) (fun _ => ⟨rfl, rfl⟩) h
    simp only [touchSelects, Bool.and_eq_true, decide_eq_true_eq] at hs
    exact hs.1.2
  | deleteJobsById name ids attempts =>
    obtain rfl : { db with jobs := db.jobs.filter fun j => !(named name ids j && fence attempts j) } = db' := by
      simpa [exec, PgBoss.deleteJobsById, Database.deleteWhere, Except.map] using h
    exact effect_of_sublist hdb (fun r hr => (List.mem_filter.mp hr).1) (hdb.consistent.filter _)
  | deleteJobsBatch now name kind after batchSize =>
    obtain rfl := Except.ok.inj h
    exact effect_of_sublist hdb (fun r hr => (List.mem_filter.mp hr).1) (hdb.consistent.filter _)
  | resumeJobs now name ids =>
    refine effect_of_update (resumeSet now) hdb (fun j hj hs => .resume now ?_) (fun _ => ⟨rfl, rfl⟩) h
    simp only [Bool.and_eq_true, decide_eq_true_eq] at hs
    exact hs.2
  | restoreJobs name ids =>
    obtain ⟨done, hrun⟩ := map_fst_ok h
    refine ⟨Database.updateWhere_allowed restoreSet hdb (fun _ => ⟨rfl, rfl⟩) hrun, fun r hr => ?_⟩
    rcases (Database.updateWhere_mem hrun).mp hr with ⟨hr, -⟩ | ⟨j, hj, hs, rfl⟩
    · exact .moved hr (.same r)
    · exact .restored rfl hj hs rfl
  | retryJobs now name ids =>
    refine effect_of_update (retrySet now) hdb (fun j hj hs => .retry now ?_) (fun _ => ⟨rfl, rfl⟩) h
    simp only [Bool.and_eq_true, decide_eq_true_eq] at hs
    exact hs.2
  | updateJob now name target o =>
    simp only [exec, PgBoss.updateJob] at h
    split at h
    · contradiction
    refine effect_of_update (updateSet now o) hdb (fun j hj hs => .update now o ?_) (fun _ => ⟨rfl, rfl⟩) h
    simp only [updateSelects, Bool.and_eq_true, decide_eq_true_eq] at hs
    exact hs.2
  | failJobs i call => exact failJobs_effect hdb h
  | failDistributed i call => exact failDistributed_effect hdb h
  | redriveJobs o locked => exact redriveJobs_effect hdb h
  | decrementDependents now parents missed =>
    refine effect_of_update (fun j => unblockSet now (parentsAmong parents db j.jobKey) j) hdb (fun j hj hs => .unblock now _ ?_ rfl) (fun _ => ⟨rfl, rfl⟩) h
    simp only [lockedChild, Bool.and_eq_true] at hs
    exact hs.1.1
  | clearBlocking parents => exact effect_of_update clearSet hdb (fun j hj hs => .clear j rfl) (fun _ => ⟨rfl, rfl⟩) h
  | insertDependencies deps =>
    obtain rfl := Except.ok.inj h
    exact effect_of_sublist hdb (fun r hr => hr) hdb.consistent
  | createQueue q =>
    have hjobs := (createQueue_ok h).1
    exact effect_of_sublist hdb (fun r hr => hjobs ▸ hr) (hjobs ▸ hdb.consistent)
  | updateQueue name o =>
    have hjobs := (updateQueue_ok h).1
    exact effect_of_sublist hdb (fun r hr => hjobs ▸ hr) (hjobs ▸ hdb.consistent)
  | deleteQueue name =>
    obtain ⟨hjobs, -⟩ := deleteQueue_ok h
    exact effect_of_sublist hdb (fun r hr => (List.mem_filter.mp (hjobs ▸ hr)).1) (hjobs ▸ hdb.consistent.filter _)
  | moveRows swap =>
    simp only [exec] at h
    split at h
    · rename_i hperm
      obtain rfl := Except.ok.inj h
      exact effect_of_sublist hdb (fun r hr => hperm.mem_iff.mp hr) (hdb.consistent.perm hperm.symm)
    · obtain rfl := Except.ok.inj h
      exact effect_of_sublist hdb (fun r hr => hr) hdb.consistent

end Effects

end PgBoss
