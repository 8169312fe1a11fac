import PgBoss.Lifecycle.CompletedOn

/-!
# The retention of waiting jobs

`keep_until` is set from `start_after` when a job is sent, copied or redriven, and `updateJob`
slides it along. The statements that queue a job again, a failure that retries, `retryJobs`,
`resumeJobs` and the resolver's release, move `start_after` alone. Where none of them moves it
past `keep_until`, no waiting job's `keep_until` is before its `start_after`, and no sweep takes
a job that is not due yet.
-/

namespace PgBoss

open Relational

/-- The job's `keep_until` is not before its `start_after`. -/
def Job.Lasts (j : Job) : Prop := j.startAfter ≤ j.keepUntil

instance (j : Job) : Decidable j.Lasts := inferInstanceAs (Decidable (_ ≤ _))

/-- When a job may start that a statement queues again. -/
def Statement.startsAgain (db : Database) (j : Job) : Statement → Option Timestamp
  | .failJobs i call =>
    if call.selects i.now db j ∧ canRetry (call.input i) j then some (retryRow (call.input i) j).startAfter else none
  | .failDistributed i call =>
    if j ∈ call.selected i.now db ∧ canRetry (call.input i).toFailInput j then
      some (reinsertRetryRow (call.input i) j).startAfter
    else none
  | .retryJobs now name ids => if named name ids j ∧ j.state = .failed then some (max j.startAfter now) else none
  | .resumeJobs now name ids => if named name ids j ∧ j.state = .cancelled then some (max j.startAfter now) else none
  | .decrementDependents now parents missed =>
    if lockedChild parents missed db j ∧ j.pendingDependencies ≤ parentsAmong parents db j.jobKey then
      some (max j.startAfter now)
    else none
  | _ => none

/-- `validateRetentionConfig`: a retention that is given is a second at least. -/
def retentionValid (retention : Option Int) : Prop := ∀ r ∈ retention, 1 ≤ r

instance (retention : Option Int) : Decidable (retentionValid retention) :=
  inferInstanceAs (Decidable (∀ r ∈ retention, 1 ≤ r))

/-- The options of a statement passed the check on their retention. -/
def Statement.retentionChecked : Statement → Prop
  | .updateJob _ _ _ o => retentionValid o.retentionSeconds
  | .createQueue q => 1 ≤ q.retentionSeconds
  | .updateQueue _ o => retentionValid o.retentionSeconds
  | s => ∀ x ∈ s.payload, retentionValid x.1.retentionSeconds

/-- A job that is queued again may start by its `keep_until`, and a job that is given back was open. -/
def RequeuesInTime (w : World) (s : Statement) : Prop :=
  s.retentionChecked ∧ RestoresOpen w s ∧ ∀ j ∈ w.db.jobs, ∀ t ∈ s.startsAgain w.db j, t ≤ j.keepUntil

/-- What a run keeps: every open job lasts, and a queue's retention is not negative. -/
structure World.Retaining (w : World) : Prop where
  told : w.Told
  queues : ∀ q ∈ w.db.queues, 0 ≤ q.retentionSeconds
  lasts : ∀ j ∈ w.db.jobs, j.state < .completed → j.Lasts

variable {w w₀ : World} {db db' : Database} {s : Statement} {j r : Job}

section Rows

/-- `keep_until` is not before `start_after` when a retention that is not negative is added to it. -/
theorem lasts_of_retention {start keep : Timestamp} {n : Int} (hn : 0 ≤ n) (hkeep : keep = start + seconds n) :
    start ≤ keep := by
  have hretention : 0 ≤ seconds n := Int.mul_nonneg hn (by decide)
  exact hkeep ▸ Int.le_add_of_nonneg_right hretention

/-- A row that is added lasts. -/
theorem adds_lasts (hqueues : ∀ q ∈ db.queues, 0 ≤ q.retentionSeconds)
    (hpayload : ∀ x ∈ s.payload, retentionValid x.1.retentionSeconds) (hr : s.Added db r) : r.Lasts := by
  rcases hr with ⟨_, _, hqueue, hx, rfl⟩ | ⟨_, _, _, -, hqueue, rfl⟩ | ⟨_, _, hqueue, rfl⟩
  · refine lasts_of_retention ?_ rfl
    cases hretention : JobInsert.retentionSeconds _ with
    | none => exact hqueues _ (Database.queue_mem hqueue)
    | some n => exact (hpayload _ hx n hretention).trans' (by decide)
  · exact lasts_of_retention (hqueues _ (Database.queue_mem hqueue)) rfl
  · exact lasts_of_retention (hqueues _ (Database.queue_mem hqueue)) rfl

/-- `updateJob` slides `keep_until` along with `start_after`. -/
theorem updateSet_lasts {now : Timestamp} {o : UpdatePayload} (ho : retentionValid o.retentionSeconds) (hj : j.Lasts) :
    (updateSet now o j).Lasts := by
  simp only [Job.Lasts, updateSet] at hj ⊢
  split
  · rename_i n hretention
    exact lasts_of_retention ((ho n hretention).trans' (by decide)) rfl
  · rename_i start _ hstart
    simp only [hstart, Option.map_some, Option.getD_some]
    exact Int.le_add_of_nonneg_right (Int.sub_nonneg_of_le hj)
  · rename_i hstart
    simpa only [hstart, Option.map_none, Option.getD_none] using hj

end Rows

section Steps

/-- The open jobs of some tables last. -/
def Database.Lasting (db : Database) : Prop := ∀ j ∈ db.jobs, j.state < .completed → j.Lasts

/-- An UPDATE keeps open jobs lasting when the rows it sets last if they are open. -/
theorem Database.Lasting.update {select : Job → Bool} (set : Job → Job) (hdb : db.Lasting)
    (hset : ∀ j ∈ db.jobs, select j = true → (set j).state < .completed → (set j).Lasts)
    (h : (db.updateWhere select set).map Prod.fst = .ok db') : db'.Lasting := by
  obtain ⟨ids, h⟩ := map_fst_ok h
  intro r hr hopen
  rcases (Database.updateWhere_mem h).mp hr with ⟨hr, -⟩ | ⟨j, hj, hs, rfl⟩
  · exact hdb r hr hopen
  · exact hset j hj hs hopen

/-- Fewer rows keep the open jobs lasting. -/
theorem Database.Lasting.subset (hdb : db.Lasting) (h : ∀ r ∈ db'.jobs, r ∈ db.jobs) : db'.Lasting :=
  fun r hr => hdb r (h r hr)

/-- The failure statement keeps open jobs lasting when those it retries may start in time. -/
theorem failJobs_lasting {i : FailInput} {call : FailCall} (hdb : db.Lasting)
    (htime : ∀ j ∈ db.jobs, ∀ t ∈ (Statement.failJobs i call).startsAgain db j, t ≤ j.keepUntil)
    (hqueues : ∀ q ∈ db.queues, 0 ≤ q.retentionSeconds) (h : (Statement.failJobs i call).exec db = .ok db') :
    db'.Lasting := by
  obtain ⟨rows, h⟩ := map_fst_ok h
  rw [call.run_eq] at h
  intro r hr hopen
  rcases (failJobsBody_mem h).mp hr with ⟨hr, -⟩ | ⟨j, hj, rfl⟩ | ⟨j, hj, rfl⟩ | hr
  · exact hdb r hr hopen
  · obtain ⟨hj, hs⟩ := acceptedRetries_mem hj
    cases hretry : canRetry (call.input i) j with
    | true => exact htime j hj _ (by simp [Statement.startsAgain, hs, hretry])
    | false => simp [retryRow, hretry] at hopen
  · simp [failedRow] at hopen
  · exact adds_lasts hqueues (by simp [Statement.payload]) (adds_cases (s := .failJobs i call) hr)

/-- The multi-statement failure does too. -/
theorem failDistributed_lasting {i : ReinsertInput} {call : ReinsertCall} (hallowed : db.Allowed) (hdb : db.Lasting)
    (htime : ∀ j ∈ db.jobs, ∀ t ∈ (Statement.failDistributed i call).startsAgain db j, t ≤ j.keepUntil)
    (hqueues : ∀ q ∈ db.queues, 0 ≤ q.retentionSeconds) (h : (Statement.failDistributed i call).exec db = .ok db') :
    db'.Lasting := by
  obtain ⟨count, h⟩ := map_fst_ok h
  rw [call.run_eq i hallowed] at h
  intro r hr hopen
  rcases (reinsertFailedJobs_looped h).rows r hr with hr | ⟨j, hj, ⟨rfl, hretry⟩ | rfl⟩ | hr
  · exact hdb r (List.mem_filter.mp hr).1 hopen
  · exact htime j ((call.selection i.now hallowed).mem j hj) _ (by simp [Statement.startsAgain, hj, hretry])
  · simp [reinsertFailedRow] at hopen
  · exact adds_lasts hqueues (by simp [Statement.payload]) (adds_cases (s := .failDistributed i call) hr)

/-- A redrive keeps open jobs lasting. -/
theorem redriveJobs_lasting {o : RedriveOptions} {locked : List JobKey} (hallowed : db.Allowed) (hdb : db.Lasting)
    (hqueues : ∀ q ∈ db.queues, 0 ≤ q.retentionSeconds) (h : (Statement.redriveJobs o locked).exec db = .ok db') :
    db'.Lasting := by
  obtain ⟨n, h⟩ := map_fst_ok h
  intro r hr hopen
  rcases redriveJobs_from hallowed h hr with hr | ⟨j, -, -, rfl⟩ | ⟨m, -, q, hq, rfl⟩
  · exact hdb r hr hopen
  · simp [redriveConflictSet] at hopen
  · obtain ⟨name, -, hq⟩ := Option.bind_eq_some_iff.mp hq
    exact lasts_of_retention (hqueues q (Database.queue_mem hq)) rfl

/-- A statement that requeues in time keeps open jobs lasting. -/
theorem Statement.exec_lasting (h : w.Retaining) (hmay : RequeuesInTime w s) (hexec : s.exec w.db = .ok db') :
    db'.Lasting := by
  obtain ⟨hchecked, hrestores, htime⟩ := hmay
  have hdb : w.db.Lasting := h.lasts
  have hfinished : ∀ {state : JobState} {P : Prop}, ¬ state < .completed → state < .completed → P :=
    fun hnot hopen => absurd hopen hnot
  cases s with
  | insertJobs now name upsertByKey payload =>
    obtain ⟨inserted, hrun⟩ := map_fst_ok hexec
    intro r hr hopen
    rw [(insertJobs_ok hrun).1] at hr
    rcases List.mem_append.mp hr with hr | hr
    · exact hdb r hr hopen
    · exact adds_lasts h.queues hchecked (adds_inserted (s := .insertJobs now name upsertByKey payload) hrun hr)
  | insertFlowJobs now name payload =>
    obtain ⟨inserted, hrun⟩ := map_fst_ok hexec
    intro r hr hopen
    rw [(insertJobs_ok (insertFlowJobs_ok hrun)).1] at hr
    rcases List.mem_append.mp hr with hr | hr
    · exact hdb r hr hopen
    · exact adds_lasts h.queues hchecked
        (adds_inserted (s := .insertFlowJobs now name payload) (insertFlowJobs_ok hrun) hr)
  | fetchNextJob now rank locked o =>
    obtain ⟨rows, hrun⟩ := map_fst_ok hexec
    intro r hr hopen
    rw [(fetchNextJob_ok hrun).1] at hr
    obtain ⟨j, hj, rfl⟩ := List.mem_map.mp hr
    by_cases hs : fetchSelects now rank locked o w.db j = true
    · have heligible := (fetchChosen_mem ((fetchSelects_iff h.told.allowed hj).mp hs)).2.1
      have hwait := (JobState.lt_active _).mp (fetchEligible_iff.mp heligible).2.1
      rw [if_pos hs]
      exact hdb j hj ((JobState.lt_completed _).mpr (hwait.imp_right .inl))
    · rw [if_neg hs] at hopen ⊢
      exact hdb j hj hopen
  | completeJobs now name ids output includeQueued attempts =>
    exact hdb.update (completeSet now output includeQueued) (fun j _ _ => hfinished (of_decide_eq_true rfl)) hexec
  | completeJobsWithOutputs now name items =>
    exact hdb.update (fun j => completeSet now (outputFor items j) false j) (fun j _ _ => hfinished (of_decide_eq_true rfl)) hexec
  | cancelJobs now name ids attempts => exact hdb.update (cancelSet now) (fun j _ _ => hfinished (of_decide_eq_true rfl)) hexec
  | touchJobs now name ids attempts => exact hdb.update (touchSet now) (fun j hj _ hopen => hdb j hj hopen) hexec
  | deleteJobsById name ids attempts =>
    obtain rfl := Except.ok.inj hexec
    exact hdb.subset fun r hr => (List.mem_filter.mp hr).1
  | deleteJobsBatch now name kind after batchSize =>
    obtain rfl := Except.ok.inj hexec
    exact hdb.subset fun r hr => (List.mem_filter.mp hr).1
  | resumeJobs now name ids =>
    refine hdb.update (resumeSet now) (fun j hj hs _ => htime j hj _ ?_) hexec
    simpa [Statement.startsAgain, resumeSet] using hs
  | restoreJobs name ids => exact hdb.update restoreSet (fun j hj hs _ => hdb j hj (hrestores j hj hs)) hexec
  | retryJobs now name ids =>
    refine hdb.update (retrySet now) (fun j hj hs _ => htime j hj _ ?_) hexec
    simpa [Statement.startsAgain, retrySet] using hs
  | updateJob now name target o =>
    simp only [exec, PgBoss.updateJob] at hexec
    split at hexec
    · contradiction
    exact hdb.update (updateSet now o) (fun j hj _ hopen => updateSet_lasts hchecked (hdb j hj hopen)) hexec
  | failJobs i call => exact failJobs_lasting hdb htime h.queues hexec
  | failDistributed i call => exact failDistributed_lasting h.told.allowed hdb htime h.queues hexec
  | redriveJobs o locked => exact redriveJobs_lasting h.told.allowed hdb h.queues hexec
  | decrementDependents now parents missed =>
    refine hdb.update (fun j => unblockSet now (parentsAmong parents w.db j.jobKey) j) (fun j hj hs hopen => ?_) hexec
    simp only [Job.Lasts, unblockSet]
    split
    · rename_i hreleased
      exact htime j hj _ (by simp [Statement.startsAgain, hs, Nat.sub_eq_zero_iff_le.mp hreleased])
    · exact hdb j hj hopen
  | clearBlocking parents => exact hdb.update clearSet (fun j hj _ hopen => hdb j hj hopen) hexec
  | insertDependencies deps =>
    obtain rfl := Except.ok.inj hexec
    exact hdb
  | createQueue q => exact hdb.subset fun r hr => (createQueue_ok hexec).1 ▸ hr
  | updateQueue name o => exact hdb.subset fun r hr => (updateQueue_ok hexec).1 ▸ hr
  | deleteQueue name => exact hdb.subset fun r hr => (List.mem_filter.mp ((deleteQueue_ok hexec).1 ▸ hr)).1
  | moveRows swap =>
    simp only [exec] at hexec
    split at hexec
    · rename_i hperm
      obtain rfl := Except.ok.inj hexec
      exact hdb.subset fun r hr => hperm.mem_iff.mp hr
    · obtain rfl := Except.ok.inj hexec
      exact hdb

/-- A statement whose retention was checked leaves no queue with a negative one. -/
theorem Statement.exec_retention (hallowed : db.Allowed) (hqueues : ∀ q ∈ db.queues, 0 ≤ q.retentionSeconds)
    (hchecked : s.retentionChecked) (hexec : s.exec db = .ok db') : ∀ q ∈ db'.queues, 0 ≤ q.retentionSeconds := by
  cases s with
  | createQueue q =>
    intro r hr
    rw [(createQueue_ok hexec).2.2] at hr
    split at hr
    · exact hqueues r hr
    · rcases List.mem_append.mp hr with hr | hr
      · exact hqueues r hr
      · have hq : 1 ≤ q.retentionSeconds := hchecked
        exact List.mem_singleton.mp hr ▸ hq.trans' (by decide)
  | updateQueue name o =>
    simp only [exec, PgBoss.updateQueue] at hexec
    split at hexec
    · obtain rfl := Except.ok.inj hexec
      exact hqueues
    · rename_i old _
      cases hcheck : db.queueCheck (updateQueueSet o old) with
      | error e => simp [hcheck, Except.map] at hexec
      | ok _ =>
        obtain rfl : _ = db' := by simpa [hcheck, Except.map] using hexec
        intro r hr
        obtain ⟨q, hq, rfl⟩ := List.mem_map.mp hr
        split
        · cases hretention : o.retentionSeconds with
          | none => simpa [updateQueueSet, hretention] using hqueues q hq
          | some n =>
            have hn : 1 ≤ n := hchecked n hretention
            simpa [updateQueueSet, hretention] using hn.trans' (by decide)
        · exact hqueues q hq
  | deleteQueue name =>
    intro r hr
    rw [(deleteQueue_ok hexec).2.1] at hr
    exact hqueues r (List.mem_filter.mp hr).1
  | _ => rwa [((Statement.exec_frame hallowed hexec).1 rfl)]

end Steps

/-- A run whose statements requeue in time keeps open jobs lasting. -/
theorem World.Retaining.run (h : w₀.Retaining) (hrun : World.Run RequeuesInTime w₀ w) : w.Retaining :=
  hrun.invariant h fun _ s _ hinv hmay hexec =>
    { told :=
        { allowed := (s.exec_effect hinv.told.allowed hexec).allowed
          tells := Statement.exec_tellsFinish hinv.told.allowed hinv.told.tells hmay.2.1 hexec }
      queues := Statement.exec_retention hinv.told.allowed hinv.queues hmay.1 hexec
      lasts := Statement.exec_lasting hinv hmay hexec }

/-- In a run whose statements requeue in time, a waiting job's `keep_until` is not before its
`start_after`, and no retention sweep takes a job that is not due. -/
theorem keepUntil_lasts (hstart : w₀.Retaining) (hrun : World.Run RequeuesInTime w₀ w) :
    (∀ j ∈ w.db.jobs, j.state < .active → j.startAfter ≤ j.keepUntil) ∧
      ∀ now name after batchSize db' ids, deleteJobsBatch now name .expired after batchSize w.db = .ok (db', ids) →
        ∀ j ∈ w.db.jobs, j.state < .active → now ≤ j.startAfter → j ∈ db'.jobs := by
  have hinv := hstart.run hrun
  have hlasts : ∀ j ∈ w.db.jobs, j.state < .active → j.startAfter ≤ j.keepUntil := fun j hj hwait =>
    hinv.lasts j hj ((JobState.lt_completed _).mpr (((JobState.lt_active _).mp hwait).imp_right .inl))
  refine ⟨hlasts, fun now name after batchSize db' ids hdelete j hj hwait hdue => ?_⟩
  by_contra hgone
  have hopen : j.state < .completed :=
    (JobState.lt_completed _).mpr (((JobState.lt_active _).mp hwait).imp_right .inl)
  have hkept := (deletion_spares hinv.told.tells hdelete hj hopen hgone).2
  exact absurd (hdue.trans (hlasts j hj hwait)) (not_le.mpr hkept)

section Requeued

/-- A queue that keeps its jobs a minute and retries them after an hour. -/
def shortRetention : Queue := { queueDefaults with name := "q", retentionSeconds := 60, retryDelay := 3600 }

/-- A failure of job 1. -/
def failOne (now : Timestamp) : Statement :=
  .failJobs ⟨now, fun _ => 0, fun _ => 9, fun _ => none, false⟩ (.fail "q" [1] none)

/-- A job is sent, fetched and failed. -/
def failedOnce (q : Queue) (retryLimit : Int) : List Statement :=
  [.createQueue q, .insertJobs 1 "q" false [({ id := some 1, retryLimit := some retryLimit }, 0)],
    .fetchNextJob 2 (fun _ => 0) [] { name := "q", policy := .standard }, failOne 3]

/-- A failure queues a job again for an hour later, and a sweep that runs before then takes it; and a job
that failed for good is queued again by `retryJobs` after its `keep_until`, and the next sweep
takes it. -/
theorem requeued_deleted :
    (World.Run (fun _ _ => True) World.empty (World.empty.play (failedOnce shortRetention 2)) ∧
      (∃ j ∈ (World.empty.play (failedOnce shortRetention 2)).db.jobs,
        j.state = .retry ∧ j.keepUntil < j.startAfter ∧ seconds 61 < j.startAfter) ∧
      ∃ db' ids, deleteJobsBatch (seconds 61) "q" .expired none 10000
        (World.empty.play (failedOnce shortRetention 2)).db = .ok (db', ids) ∧ db'.jobs = []) ∧
    World.Run (fun _ _ => True) World.empty
        (World.empty.play (failedOnce shortRetention 0 ++ [.retryJobs (seconds 61) "q" [1]])) ∧
      (∃ j ∈ (World.empty.play (failedOnce shortRetention 0 ++ [.retryJobs (seconds 61) "q" [1]])).db.jobs,
        j.state = .retry ∧ j.keepUntil < seconds 61 ∧ j.keepUntil < j.startAfter) ∧
      ∃ db' ids, deleteJobsBatch (seconds 61) "q" .expired none 10000
        (World.empty.play (failedOnce shortRetention 0 ++ [.retryJobs (seconds 61) "q" [1]])).db =
          .ok (db', ids) ∧ db'.jobs = [] := by
  have hfailed : World.Run (fun _ _ => True) World.empty (World.empty.play (failedOnce shortRetention 2)) :=
    World.play_run (by decide)
  have hretried : World.Run (fun _ _ => True) World.empty
      (World.empty.play (failedOnce shortRetention 0 ++ [.retryJobs (seconds 61) "q" [1]])) :=
    World.play_run (by decide)
  exact ⟨⟨hfailed, by decide, _, _, rfl, by decide⟩, hretried, by decide, _, _, rfl, by decide⟩

instance (s : Statement) : Decidable s.retentionChecked := by
  unfold Statement.retentionChecked; split <;> infer_instance

instance (w : World) (s : Statement) : Decidable (RequeuesInTime w s) := by
  unfold RequeuesInTime; infer_instance

/-- The theorem where the queue keeps its jobs two weeks: the retried job lasts. -/
theorem keepUntil_lasts_retried :
    ∃ j ∈ (World.empty.play (failedOnce { queueDefaults with name := "q" } 2)).db.jobs,
      j.state = .retry ∧ j.startAfter ≤ j.keepUntil := by
  have hrun : World.Run RequeuesInTime World.empty
      (World.empty.play (failedOnce { queueDefaults with name := "q" } 2)) := World.play_run (by decide)
  have hstart : World.empty.Retaining := ⟨⟨World.empty_allowed, by decide⟩, by decide, by decide⟩
  have hlasts := (keepUntil_lasts hstart hrun).1
  have hretry : ∃ j ∈ (World.empty.play (failedOnce { queueDefaults with name := "q" } 2)).db.jobs,
      j.state = .retry := by decide
  obtain ⟨j, hj, hstate⟩ := hretry
  exact ⟨j, hj, hstate, hlasts j hj (by simp [hstate])⟩

end Requeued

end PgBoss
