import PgBoss.Lifecycle.Queues

/-!
# The finish stamp

Every statement that finishes a job sets `completed_on`, and every one that opens a finished job
again clears it, but for `restoreJobs`, which sets a row of any state to `created` and leaves
the stamp. In runs that restore open jobs only, `completed_on` is set on the finished jobs and
no others, and the retention sweep, which goes by the stamp and not by the state, leaves a job
that waits to its `keep_until` and a running one alone.
-/

namespace PgBoss

open Relational

/-- `completed_on` is set if the job is completed, cancelled or failed, and only then. -/
def Job.TellsFinish (j : Job) : Prop := j.completedOn.isSome = true ↔ ¬ j.state < .completed

instance (j : Job) : Decidable j.TellsFinish := inferInstanceAs (Decidable (_ ↔ _))

/-- A `restoreJobs` call names no finished job. -/
def RestoresOpen (w : World) : Statement → Prop
  | .restoreJobs name ids => ∀ j ∈ w.db.jobs, named name ids j = true → j.state < .completed
  | _ => True

instance (w : World) (s : Statement) : Decidable (RestoresOpen w s) := by
  unfold RestoresOpen; split <;> infer_instance

variable {flow : Bool} {j r : Job} {w₀ w : World} {db db' : Database} {s : Statement}

/-- An open job without the stamp tells. -/
theorem Job.TellsFinish.of_open (hstate : j.state < .completed) (hstamp : j.completedOn = none) : j.TellsFinish := by
  simp only [Job.TellsFinish, hstamp, hstate, Option.isSome_none, Bool.false_eq_true, not_true_eq_false]

/-- A finished job with the stamp tells. -/
theorem Job.TellsFinish.of_finished (hstate : ¬ j.state < .completed) (hstamp : j.completedOn.isSome = true) :
    j.TellsFinish := iff_of_true hstamp hstate

/-- An open job that tells has no stamp. -/
theorem Job.TellsFinish.stamp_none (h : j.TellsFinish) (hstate : j.state < .completed) : j.completedOn = none :=
  Option.not_isSome_iff_eq_none.mp fun hsome => h.mp hsome hstate

/-- No move of a statement parts the stamp from the state. -/
theorem Evolves.tellsFinish (h : Evolves flow j r) (hj : j.TellsFinish) : r.TellsFinish := by
  cases h with
  | same | touch | update | unblock | clear => exact hj
  | resume | retry | reinsertRetry => exact .of_open (of_decide_eq_true rfl) rfl
  | complete | cancel | failEnd | reinsertEnd | redriveFail => exact .of_finished (of_decide_eq_true rfl) rfl
  | failRetry i hopen =>
    cases hretry : canRetry i j with
    | true => exact .of_open (by simp [retryRow, hretry]) (by simp [retryRow, hretry])
    | false => exact .of_finished (by simp [retryRow, hretry]) (by simp [retryRow, hretry])

/-- A row a statement adds waits and has no stamp. -/
theorem adds_waiting (hr : r ∈ s.adds db) : r.state = .created ∧ r.completedOn = none := by
  rcases adds_cases hr with ⟨_, _, -, -, rfl⟩ | ⟨_, _, _, -, -, rfl⟩ | ⟨_, _, -, rfl⟩ <;> exact ⟨rfl, rfl⟩

/-- A statement that restores open jobs only keeps the stamps. -/
theorem Statement.exec_tellsFinish {w : World} (hallowed : w.db.Allowed) (htells : ∀ j ∈ w.db.jobs, j.TellsFinish)
    (hmay : RestoresOpen w s) (hexec : s.exec w.db = .ok db') : ∀ r ∈ db'.jobs, r.TellsFinish := by
  intro r hr
  cases (s.exec_effect hallowed hexec).rows r hr with
  | moved hj hmove => exact hmove.tellsFinish (htells _ hj)
  | claimed hj hwait _ hset _ =>
    obtain rfl := hset
    exact .of_open (of_decide_eq_true rfl) ((htells _ hj).stamp_none (by revert hwait; simp; tauto))
  | restored hs hj hnamed hset =>
    subst hs
    obtain rfl := hset
    exact .of_open (of_decide_eq_true rfl) ((htells _ hj).stamp_none (hmay _ hj hnamed))
  | added hadd =>
    obtain ⟨hstate, hstamp⟩ := adds_waiting hadd
    exact .of_open (hstate ▸ of_decide_eq_true rfl) hstamp

/-- The constraints hold, and every stamp tells. -/
structure World.Told (w : World) : Prop where
  allowed : w.db.Allowed
  tells : ∀ j ∈ w.db.jobs, j.TellsFinish

/-- A run that restores open jobs only keeps the stamps. -/
theorem World.Told.run (h : w₀.Told) (hrun : World.Run RestoresOpen w₀ w) : w.Told :=
  hrun.invariant h fun _ s _ hinv hmay hexec =>
    ⟨(s.exec_effect hinv.allowed hexec).allowed, Statement.exec_tellsFinish hinv.allowed hinv.tells hmay hexec⟩

/-- What the retention sweep takes of open jobs that tell: waiting ones past their `keep_until`. -/
theorem deletion_spares {now : Timestamp} {name : String} {after : Option Uuid} {batchSize : ℕ} {ids : List Uuid}
    (htells : ∀ j ∈ db.jobs, j.TellsFinish)
    (hdelete : deleteJobsBatch now name .expired after batchSize db = .ok (db', ids)) (hj : j ∈ db.jobs)
    (hopen : j.state < .completed) (hgone : j ∉ db'.jobs) : j.state < .active ∧ j.keepUntil < now := by
  obtain ⟨rfl, -⟩ := Prod.mk.inj (Except.ok.inj hdelete)
  have hstamp := (htells j hj).stamp_none hopen
  have hselected := List.mem_filter.not.mp hgone
  simp only [hj, true_and, Bool.not_eq_true', Bool.not_eq_false, Bool.and_eq_true] at hselected
  have hexpired := hselected.2
  simpa [WalkDelete.predicate, hstamp] using hexpired

/-- In a run that restores open jobs only, `completed_on` is set on exactly the finished jobs, and a
retention sweep takes no running job, and of the waiting ones those past their `keep_until`. -/
theorem completedOn_tells (hallowed : w₀.db.Allowed) (hstart : ∀ j ∈ w₀.db.jobs, j.TellsFinish)
    (hrun : World.Run RestoresOpen w₀ w) :
    (∀ j ∈ w.db.jobs, j.TellsFinish) ∧
      ∀ now name after batchSize db' ids, deleteJobsBatch now name .expired after batchSize w.db = .ok (db', ids) →
        ∀ j ∈ w.db.jobs, j.state < .completed → j ∉ db'.jobs → j.state < .active ∧ j.keepUntil < now := by
  have htells := (World.Told.run ⟨hallowed, hstart⟩ hrun).tells
  exact ⟨htells, fun _ _ _ _ _ _ hdelete _ hj hopen hgone => deletion_spares htells hdelete hj hopen hgone⟩

section Restored

/-- A job is sent, fetched and completed, and then restored. -/
def restoredLate : List Statement :=
  [.createQueue { queueDefaults with name := "q" }, .insertJobs 1 "q" false [({ id := some 1 }, 0)],
    .fetchNextJob 2 (fun _ => 0) [] { name := "q", policy := .standard },
    .completeJobs 3 "q" [1] none false none, .restoreJobs "q" [1]]

/-- The restored job waits under the stamp of its completion, and a sweep takes it after that stamp's
`deletion_seconds`, a week before its `keep_until`. -/
theorem restored_deleted : World.Run (fun _ _ => True) World.empty (World.empty.play restoredLate) ∧
    (∃ j ∈ (World.empty.play restoredLate).db.jobs, j.state = .created ∧ j.completedOn = some 3 ∧
      604800000004 ≤ j.keepUntil) ∧
    (∃ db' ids, deleteJobsBatch 604800000004 "q" .expired none 10000 (World.empty.play restoredLate).db =
      .ok (db', ids) ∧ db'.jobs = []) ∧
    ¬ ∀ w, World.Run (fun _ _ => True) World.empty w → ∀ j ∈ w.db.jobs, j.TellsFinish := by
  have hrun : World.Run (fun _ _ => True) World.empty (World.empty.play restoredLate) := World.play_run (by decide)
  refine ⟨hrun, by decide, ⟨_, _, rfl, by decide⟩, fun hall => ?_⟩
  have htells : ∀ j ∈ (World.empty.play restoredLate).db.jobs, j.TellsFinish := hall _ hrun
  revert htells
  decide

/-- A job is cancelled, resumed, fetched and restored. -/
def restoredOpen : List Statement :=
  [.createQueue { queueDefaults with name := "q" }, .insertJobs 1 "q" false [({ id := some 1 }, 0)],
    .cancelJobs 2 "q" [1] none, .resumeJobs 3 "q" [1],
    .fetchNextJob 4 (fun _ => 0) [] { name := "q", policy := .standard }, .restoreJobs "q" [1]]

/-- The theorem at that run: the job waits without a stamp. -/
theorem completedOn_tells_resumed : ∃ j ∈ (World.empty.play restoredOpen).db.jobs,
    j.state = .created ∧ j.TellsFinish := by
  have hrun : World.Run RestoresOpen World.empty (World.empty.play restoredOpen) := World.play_run (by decide)
  have htells := (completedOn_tells World.empty_allowed (by decide) hrun).1
  have hcreated : ∃ j ∈ (World.empty.play restoredOpen).db.jobs, j.state = .created := by decide
  obtain ⟨j, hj, hstate⟩ := hcreated
  exact ⟨j, hj, hstate, htells j hj⟩

end Restored

end PgBoss
