import PgBoss.Upsert.Moves

/-!
# Who writes a payload

Of all statements only `updateJob` writes the `data` of a row there is. Any other leaves each row
it does not add with the payload the row of the same name and id had, also where it deletes the
row and inserts it again.
-/

namespace PgBoss

open Relational

/-- The rows a statement leaves, the added ones apart, have the payloads they had. -/
def Statement.KeepsPayloads (s : Statement) (db db' : Database) : Prop :=
  ∀ r ∈ db'.jobs, r ∈ s.adds db ∨ ∃ j ∈ db.jobs, j.jobKey = r.jobKey ∧ j.payloadData = r.payloadData

section Payloads

variable {db db' : Database} {s : Statement}

/-- Leaving the rows alone, or some of them out. -/
theorem keepsPayloads_of_subset (hsub : ∀ r ∈ db'.jobs, r ∈ db.jobs) : s.KeepsPayloads db db' :=
  fun r hr => .inr ⟨r, hsub r hr, rfl, rfl⟩

/-- An UPDATE of other columns. -/
theorem keepsPayloads_of_update {select : Job → Bool} (set : Job → Job)
    (hset : ∀ j, (set j).jobKey = j.jobKey ∧ (set j).payloadData = j.payloadData)
    (h : (db.updateWhere select set).map Prod.fst = .ok db') : s.KeepsPayloads db db' := by
  obtain ⟨ids, hrun⟩ := map_fst_ok h
  intro r hr
  rcases (Database.updateWhere_mem hrun).mp hr with ⟨hr, -⟩ | ⟨j, hj, -, rfl⟩
  · exact .inr ⟨r, hr, rfl, rfl⟩
  · exact .inr ⟨j, hj, (hset j).1.symm, (hset j).2.symm⟩

/-- An insert leaves the rows there are. -/
theorem keepsPayloads_of_insert {now : Timestamp} {name : String} {upsertByKey : Bool}
    {payload : List (JobInsert × Uuid)} {rows : List Job}
    (h : insertJobs now name upsertByKey payload db = .ok (db', rows)) (hadds : s.adds db = rows) :
    s.KeepsPayloads db db' := by
  intro r hr
  rw [(insertJobs_ok h).1] at hr
  rcases List.mem_append.mp hr with hr | hr
  · exact .inr ⟨r, hr, rfl, rfl⟩
  · exact .inl (hadds ▸ hr)

/-- A failed job is written again with its payload. -/
theorem failJobs_keepsPayloads {i : FailInput} {call : FailCall}
    (h : (Statement.failJobs i call).exec db = .ok db') : (Statement.failJobs i call).KeepsPayloads db db' := by
  obtain ⟨rows, hrun⟩ := map_fst_ok h
  rw [call.run_eq] at hrun
  intro r hr
  rcases (failJobsBody_mem hrun).mp hr with ⟨hr, -⟩ | ⟨j, hj, rfl⟩ | ⟨j, hj, rfl⟩ | hr
  · exact .inr ⟨r, hr, rfl, rfl⟩
  · exact .inr ⟨j, (acceptedRetries_mem hj).1, rfl, rfl⟩
  · exact .inr ⟨j, (insertedFailures_mem.mp hj).1.1, rfl, rfl⟩
  · exact .inl hr

/-- A JSON null in a row and the null of SQL are one payload. -/
theorem getD_toJsonText (value : Option Json) : (toJsonText value).getD "null" = value.getD "null" := by
  cases value with
  | none => rfl
  | some text => by_cases h : text = "null" <;> simp [toJsonText, Option.filter_some, h]

/-- So it is by the loop. -/
theorem failDistributed_keepsPayloads {i : ReinsertInput} {call : ReinsertCall} (hdb : db.Allowed)
    (h : (Statement.failDistributed i call).exec db = .ok db') :
    (Statement.failDistributed i call).KeepsPayloads db db' := by
  obtain ⟨count, hrun⟩ := map_fst_ok h
  rw [call.run_eq i hdb] at hrun
  have hsel := call.selection i.now hdb
  intro r hr
  rcases (reinsertFailedJobs_looped hrun).rows r hr with hr | ⟨j, hj, ⟨rfl, -⟩ | rfl⟩ | hr
  · exact .inr ⟨r, (List.mem_filter.mp hr).1, rfl, rfl⟩
  · exact .inr ⟨j, hsel.mem j hj, rfl, (getD_toJsonText j.data).symm⟩
  · exact .inr ⟨j, hsel.mem j hj, rfl, (getD_toJsonText j.data).symm⟩
  · exact .inl hr

/-- Every statement but `updateJob` keeps the payloads. -/
theorem Statement.exec_keepsPayloads (s : Statement) (hdb : db.Allowed) (hs : s.isUpdate = false)
    (h : s.exec db = .ok db') : s.KeepsPayloads db db' := by
  cases s with
  | insertJobs now name upsertByKey payload =>
    obtain ⟨rows, hrun⟩ := map_fst_ok h
    exact keepsPayloads_of_insert hrun (by simp [adds, hrun])
  | insertFlowJobs now name payload =>
    obtain ⟨rows, hrun⟩ := map_fst_ok h
    exact keepsPayloads_of_insert (insertFlowJobs_ok hrun) (by simp [adds, hrun])
  | fetchNextJob now rank locked o =>
    obtain ⟨rows, hrun⟩ := map_fst_ok h
    intro r hr
    rw [(fetchNextJob_ok hrun).1] at hr
    obtain ⟨j, hj, rfl⟩ := List.mem_map.mp hr
    exact .inr ⟨j, hj, by split <;> rfl, by split <;> rfl⟩
  | completeJobs now name ids output includeQueued attempts =>
    exact keepsPayloads_of_update (completeSet now output includeQueued) (fun _ => ⟨rfl, rfl⟩) h
  | completeJobsWithOutputs now name items =>
    exact keepsPayloads_of_update (fun j => completeSet now (outputFor items j) false j) (fun _ => ⟨rfl, rfl⟩) h
  | cancelJobs now name ids attempts => exact keepsPayloads_of_update (cancelSet now) (fun _ => ⟨rfl, rfl⟩) h
  | touchJobs now name ids attempts => exact keepsPayloads_of_update (touchSet now) (fun _ => ⟨rfl, rfl⟩) h
  | deleteJobsById name ids attempts =>
    obtain rfl : { db with jobs := db.jobs.filter fun j => !(named name ids j && fence attempts j) } = db' := by
      simpa [exec, PgBoss.deleteJobsById, Database.deleteWhere, Except.map] using h
    exact keepsPayloads_of_subset fun r hr => (List.mem_filter.mp hr).1
  | deleteJobsBatch now name kind after batchSize =>
    obtain rfl := Except.ok.inj h
    exact keepsPayloads_of_subset fun r hr => (List.mem_filter.mp hr).1
  | resumeJobs now name ids => exact keepsPayloads_of_update (resumeSet now) (fun _ => ⟨rfl, rfl⟩) h
  | restoreJobs name ids => exact keepsPayloads_of_update restoreSet (fun _ => ⟨rfl, rfl⟩) h
  | retryJobs now name ids => exact keepsPayloads_of_update (retrySet now) (fun _ => ⟨rfl, rfl⟩) h
  | updateJob now name target o => simp [isUpdate] at hs
  | failJobs i call => exact failJobs_keepsPayloads h
  | failDistributed i call => exact failDistributed_keepsPayloads hdb h
  | redriveJobs o locked =>
    obtain ⟨n, hrun⟩ := map_fst_ok h
    intro r hr
    rcases redriveJobs_from hdb hrun hr with hr | ⟨j, hj, -, rfl⟩ | ⟨m, hm, q, hq, rfl⟩
    · exact .inr ⟨r, hr, rfl, rfl⟩
    · exact .inr ⟨j, hj, rfl, rfl⟩
    · exact .inl (List.mem_filterMap.mpr ⟨m, hm, by simp [hq]⟩)
  | decrementDependents now parents missed =>
    exact keepsPayloads_of_update (fun j => unblockSet now (parentsAmong parents db j.jobKey) j) (fun _ => ⟨rfl, rfl⟩) h
  | clearBlocking parents => exact keepsPayloads_of_update clearSet (fun _ => ⟨rfl, rfl⟩) h
  | insertDependencies deps =>
    obtain rfl := Except.ok.inj h
    exact keepsPayloads_of_subset fun r hr => hr
  | createQueue q => exact keepsPayloads_of_subset fun r hr => (createQueue_ok h).1 ▸ hr
  | updateQueue name o => exact keepsPayloads_of_subset fun r hr => (updateQueue_ok h).1 ▸ hr
  | deleteQueue name => exact keepsPayloads_of_subset fun r hr => (List.mem_filter.mp ((deleteQueue_ok h).1 ▸ hr)).1
  | moveRows swap =>
    simp only [exec] at h
    split at h
    · rename_i hperm
      obtain rfl := Except.ok.inj h
      exact keepsPayloads_of_subset fun r hr => hperm.mem_iff.mp hr
    · obtain rfl := Except.ok.inj h
      exact keepsPayloads_of_subset fun r hr => hr

end Payloads

end PgBoss
