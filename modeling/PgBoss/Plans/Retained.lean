import PgBoss.Plans.Delete
import PgBoss.Plans.Stats

/-!
# Retained jobs

A queue row keeps a count of its completed and cancelled jobs up to a watermark. A monitor pass or a
forced refresh adds those that finished since and moves the watermark up to the end of its window, the
retention sweep counts what it leaves up to the lag before its start, and a delete or a resume takes off
what it moves out. Only the columns that these statements read or write are here.
-/

namespace PgBoss

/-- `RETAINED_STATES`. -/
def Job.retained (j : Job) : Bool := decide (j.state = .completed) || decide (j.state = .cancelled)

/-- `LIVE_STATES`. -/
def Job.live (j : Job) : Bool := decide (j.state < .completed) || decide (j.state = .failed)

/-- A completed or cancelled job of the queue that finished at or before `t`; none where `t` is null. -/
def finishedBy (name : String) (t : Option Int) (j : Job) : Bool :=
  decide (j.name = name) && j.retained && j.completedOn.any fun c => t.any fun t => decide (c ≤ t)

/-- A completed or cancelled job of the queue that finished after `t` and at or before `stop`. -/
def finishedSince (name : String) (t : Option Int) (stop : Int) (j : Job) : Bool :=
  decide (j.name = name) && j.retained &&
    j.completedOn.any fun c => (t.any fun t => decide (c > t)) && decide (c ≤ stop)

/-- The columns of a queue row that the counts are kept in. -/
structure RetainedColumns where
  queuedCount : Int := 0
  activeCount : Int := 0
  failedCount : Int := 0
  totalCount : Int := 0
  retainedCount : Option Int := none
  retainedOn : Option Int := none
  deriving DecidableEq, Repr

/-- The columns of a `stats` row that they are set from. -/
structure RetainedStats where
  queuedCount : ℕ
  activeCount : ℕ
  failedCount : ℕ
  liveCount : ℕ
  retainedFrom : Option Int
  retainedSince : ℕ
  retainedRecent : ℕ

/-- These columns of `getQueueStats`. -/
def retainedStats (now : Int) (name : String) (jobs : List Job) (queue : RetainedColumns) : RetainedStats where
  queuedCount := jobs.countP fun j => decide (j.name = name) && decide (j.state < .active)
  activeCount := jobs.countP fun j => decide (j.name = name) && decide (j.state = .active)
  failedCount := jobs.countP fun j => decide (j.name = name) && decide (j.state = .failed)
  liveCount := jobs.countP fun j => decide (j.name = name) && j.live
  retainedFrom := queue.retainedOn
  retainedSince := jobs.countP (finishedSince name queue.retainedOn (deltaWindowEnd now))
  retainedRecent := jobs.countP (finishedSince name (some (greatest queue.retainedOn (deltaWindowEnd now))) now)

/-- `retainedAssignments`, with the gauges that the statement sets beside it. -/
def retainedAssignments (stop : Int) (stats : RetainedStats) (queue : RetainedColumns) : RetainedColumns :=
  let counted := decide (queue.retainedOn = stats.retainedFrom)
  let retained := if counted then queue.retainedCount.map (· + (stats.retainedSince : Int)) else queue.retainedCount
  { queuedCount := stats.queuedCount
    activeCount := stats.activeCount
    failedCount := stats.failedCount
    retainedCount := retained
    retainedOn := if counted then queue.retainedOn.map (max · stop) else queue.retainedOn
    totalCount :=
      match queue.retainedCount with
      | none => max queue.totalCount stats.liveCount
      | some _ =>
        if counted then stats.liveCount + retained.getD 0 + stats.retainedRecent else queue.totalCount }

/-- What `cacheQueueStats` and `refreshQueueStats` set, in a transaction that began at `now`. -/
def countRetained (now : Int) (name : String) (jobs : List Job) (queue : RetainedColumns) : RetainedColumns :=
  retainedAssignments (deltaWindowEnd now) (retainedStats now name jobs queue) queue

/-- `setRetainedCount`. -/
def setRetainedCount (now : Int) (name : String) (count : ℕ) (retainedBefore : Int) (jobs : List Job)
    (queue : RetainedColumns) : RetainedColumns :=
  { queue with
    retainedCount := some count
    retainedOn := some retainedBefore
    totalCount := queue.queuedCount + queue.activeCount + queue.failedCount + count +
      jobs.countP (finishedSince name (some retainedBefore) now) }

/-- `reduceRetainedCount`. -/
def reduceRetainedCount (retained removed : ℕ) (queue : RetainedColumns) : RetainedColumns :=
  { queue with
    retainedCount := queue.retainedCount.map fun count => max (count - retained) 0
    totalCount := max (queue.totalCount - removed) 0 }

/-- `zeroQueueStats`. -/
def zeroQueueStats (now : Int) : RetainedColumns :=
  { retainedCount := some 0, retainedOn := some (deltaWindowEnd now) }

/-- The keys that a batch of a walk covers. -/
def batchRange (name : String) (after : Option Uuid) (batchSize : ℕ) (db : Database) (j : Job) : Bool :=
  decide (j.name = name) && (after.all fun id => decide (id < j.id)) &&
    ((walkEdge name after batchSize db).all fun edge => decide (j.id ≤ edge))

/-- The row that a batch of `deleteJobsBatch` returns. -/
structure WalkRow where
  walkCursor : Option Uuid
  deleted : ℕ
  deletedRetained : ℕ
  retained : ℕ
  deriving DecidableEq, Repr

/-- The row of a batch, where `retainedBefore` is null for the bulk deletes. -/
def walkRow (now : Int) (name : String) (kind : WalkDelete) (retainedOn retainedBefore : Option Int)
    (after : Option Uuid) (batchSize : ℕ) (db : Database) : WalkRow :=
  let range := db.jobs.filter (batchRange name after batchSize db)
  let removed := range.filter (kind.predicate now)
  { walkCursor := walkEdge name after batchSize db
    deleted := removed.length
    deletedRetained := removed.countP (finishedBy name retainedOn)
    retained := range.countP (finishedBy name retainedBefore) - removed.countP (finishedBy name retainedBefore) }

/-- What a batch leaves. -/
theorem deleteJobsBatch_jobs {now : Int} {name : String} {kind : WalkDelete} {after : Option Uuid} {batchSize : ℕ}
    {db db' : Database} {ids : List Uuid} (h : deleteJobsBatch now name kind after batchSize db = .ok (db', ids)) :
    db'.jobs = db.jobs.filter (fun j => !(batchRange name after batchSize db j && kind.predicate now j)) ∧
      db'.queues = db.queues := by
  obtain ⟨rfl, -⟩ := Prod.mk.inj (Except.ok.inj h)
  exact ⟨rfl, rfl⟩

/-- The edge of a batch is behind its cursor. -/
theorem lt_of_walkEdge {name : String} {after : Option Uuid} {batchSize : ℕ} {db : Database} {edge : Uuid}
    (h : walkEdge name after batchSize db = some edge) : after.all (fun id => decide (id < edge)) = true := by
  have hmem : edge ∈ walkKeys name after db :=
    (List.perm_insertionSort (· ≤ ·) (walkKeys name after db)).mem_iff.mp (List.mem_of_getElem? h)
  obtain ⟨j, hj, rfl⟩ := List.mem_map.mp hmem
  exact (Bool.and_eq_true_iff.mp (List.mem_filter.mp hj).2).2

/-- What is counted splits by any other property. -/
theorem countP_eq_and_add {l : List Job} (p q : Job → Bool) :
    l.countP p = l.countP (fun j => p j && q j) + l.countP fun j => p j && !q j := by
  induction l with
  | nil => rfl
  | cons j l ih =>
    simp only [List.countP_cons, ih]
    cases p j <;> cases q j <;> simp +arith

end PgBoss
