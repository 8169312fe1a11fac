import PgBoss.Plans.Settle

/-!
# The statements that take jobs out

One batch of the retention sweep and of `deleteQueuedJobs`, `deleteStoredJobs` and
`deleteAllJobs`, which walk a queue by id, and `deleteQueue`, which takes the queue with its
jobs.
-/

namespace PgBoss

open Relational

/-- The predicates of the walks. -/
inductive WalkDelete
  | expired
  | queued
  | stored
  | all
  deriving DecidableEq, Repr

/-- Which jobs of its range a batch deletes. -/
def WalkDelete.predicate (now : Timestamp) : WalkDelete → Job → Bool
  | expired, j =>
    (decide (0 < j.deletionSeconds) && j.completedOn.any fun done => decide (done + seconds j.deletionSeconds < now)) ||
      (decide (j.state < .active) && decide (j.keepUntil < now))
  | queued, j => decide (j.state < .active)
  | stored, j => decide (JobState.active < j.state)
  | all, _ => true

/-- The ids a walk of the queue has yet to cover. -/
def walkKeys (name : String) (after : Option Uuid) (db : Database) : List Uuid :=
  (db.jobs.filter fun j => decide (j.name = name) && after.all fun id => decide (id < j.id)).map Job.id

/-- The `edge` CTE: the last id of the batch, none when the batch ends the queue. -/
def walkEdge (name : String) (after : Option Uuid) (batchSize : ℕ) (db : Database) : Option Uuid :=
  ((walkKeys name after db).insertionSort (· ≤ ·))[batchSize - 1]?

/-- `deleteJobsBatch`. -/
def deleteJobsBatch (now : Timestamp) (name : String) (kind : WalkDelete) (after : Option Uuid) (batchSize : ℕ)
    (db : Database) : Reply (List Uuid) :=
  db.deleteWhere fun j => decide (j.name = name) && (after.all fun id => decide (id < j.id)) &&
    ((walkEdge name after batchSize db).all fun edge => decide (j.id ≤ edge)) && kind.predicate now j

/-- `deleteQueue`, refused while another queue or a job of one names it as its dead letter queue. -/
def deleteQueue (name : String) (db : Database) : Except SqlError Database :=
  if (db.queues.any fun q => decide (q.name ≠ name ∧ q.deadLetter = some name)) ||
      (db.jobs.any fun j => decide (j.name ≠ name ∧ j.deadLetter = some name)) then .error .foreignKeyViolation
  else .ok { db with
    jobs := db.jobs.filter fun j => decide (j.name ≠ name)
    queues := db.queues.filter fun q => decide (q.name ≠ name) }

/-- What `deleteQueue` leaves. -/
theorem deleteQueue_ok {name : String} {db db' : Database} (h : deleteQueue name db = .ok db') :
    db'.jobs = db.jobs.filter (fun j => decide (j.name ≠ name)) ∧
      db'.queues = db.queues.filter (fun q => decide (q.name ≠ name)) ∧ db'.dependencies = db.dependencies := by
  rw [deleteQueue] at h
  split at h
  · contradiction
  · obtain rfl := Except.ok.inj h
    exact ⟨rfl, rfl, rfl⟩

end PgBoss
