import PgBoss.Plans.Settle

/-!
# The one-statement failure path

`failJobsBody` deletes the selected rows and inserts each again, as its retry or as failed,
in one statement of four data-modifying CTEs. `retried_jobs` reads `deleted_jobs` row by row,
so a row is deleted just before its own retry is inserted, and the rows after it are still in
the table when that insert is checked. The scan order is the heap order, which is arbitrary.

`random` is the `random()` drawn for a row and `newId` the `gen_random_uuid()` of its dead
letter copy.
-/

namespace PgBoss

open Relational

/-- What a failure statement draws and is given besides the rows it selects. -/
structure FailInput where
  now : Timestamp
  random : Job → ℚ
  newId : Job → Uuid
  output : Job → Option Json
  forceTerminal : Bool := false

/-- `x * interval '1s'` for a fractional number of seconds, in whole microseconds. -/
def interval (x : ℚ) : Int := round (x * 1000000)

/-- The backoff delay in seconds: a power of two of the attempts so far, half of it random,
capped by `retry_delay_max` unless that is null. -/
def backoffDelay (random : ℚ) (j : Job) : ℚ :=
  let half : ℚ := (2 : ℚ) ^ (min 16 (j.retryCount + 1)) / 2
  let delay : ℚ := (max j.retryDelay 1 : Int) * (half + half * random)
  match j.retryDelayMax with
  | none => delay
  | some cap => min (cap : ℚ) delay

/-- The job may run again: fewer retries than its limit, and not forced to end. -/
def canRetry (i : FailInput) (j : Job) : Bool :=
  !i.forceTerminal && decide ((j.retryCount : Int) < j.retryLimit)

/-- The row `retried_jobs` inserts for a deleted job. -/
def retryRow (i : FailInput) (j : Job) : Job :=
  { j with
    state := if canRetry i j then .retry else .failed
    startAfter :=
      if (j.retryCount : Int) = j.retryLimit then j.startAfter
      else if !j.retryBackoff then i.now + seconds j.retryDelay
      else i.now + interval (backoffDelay (i.random j) j)
    completedOn := if canRetry i j then none else some i.now
    output := toJsonText (i.output j)
    heartbeatOn := none
    upsertByKey := false }

/-- The row `failed_jobs` inserts for a deleted job. -/
def failedRow (i : FailInput) (j : Job) : Job :=
  { j with
    state := .failed
    completedOn := some i.now
    output := toJsonText (i.output j)
    heartbeatOn := none
    upsertByKey := false }

/-- The row `dlq_jobs` inserts into the dead letter queue `q` for the failed row `r` of `j`.
The columns it leaves out take the table's defaults. -/
def deadLetterRow (i : FailInput) (j r : Job) (q : Queue) : Job where
  id := i.newId j
  name := q.name
  priority := r.priority
  data := r.data
  retryLimit := q.retryLimit
  retryBackoff := q.retryBackoff
  retryDelay := q.retryDelay
  startAfter := i.now
  createdOn := i.now
  keepUntil := i.now + seconds q.retentionSeconds
  deletionSeconds := q.deletionSeconds
  expireSeconds := q.expireSeconds
  singletonKey := r.singletonKey
  groupId := r.groupId
  groupTier := r.groupTier
  heartbeatSeconds := q.heartbeatSeconds
  sourceName := some r.name
  sourceId := some r.id
  sourceCreatedOn := some r.createdOn
  sourceRetryCount := some r.retryCount
  sourceOutput := r.output
  sourceRootId := some (r.sourceRootId.getD r.id)
  traceContext := r.traceContext

/-- `JOIN queue q ON q.name = r.dead_letter`. -/
def Database.deadLetterQueue (db : Database) (j : Job) : Option Queue := j.deadLetter.bind db.queue

/-- The `deleted_jobs` and `retried_jobs` CTEs over the selected rows in scan order: the table
afterwards, and the deleted rows whose first re-insert was accepted. -/
def retriedJobs (i : FailInput) : List Job → List Job → List Job × List Job
  | rows, [] => (rows, [])
  | rows, j :: rest =>
    let rows' := rows.erase j
    if refused jobIndexes rows' (retryRow i j) then retriedJobs i rows' rest
    else
      let out := retriedJobs i (rows' ++ [retryRow i j]) rest
      (out.1, j :: out.2)

/-- The deleted rows `failed_jobs` inserts: those whose id no retried row has. -/
def failedJobs (deleted retried : List Job) : List Job :=
  deleted.filter fun j => decide (j.id ∉ retried.map Job.id)

/-- The `results` CTE: each job that was re-inserted, with its row. -/
def failResults (i : FailInput) (retried failed : List Job) : List (Job × Job) :=
  (retried.map fun j => (j, retryRow i j)) ++ failed.map fun j => (j, failedRow i j)

/-- The rows `dlq_jobs` inserts. -/
def dlqJobs (i : FailInput) (db : Database) (results : List (Job × Job)) : List Job :=
  results.filterMap fun (j, r) =>
    if r.state = .failed then (db.deadLetterQueue r).map (deadLetterRow i j r) else none

/-- `failJobsBody` over the rows `select` matches. Returns the re-inserted rows. -/
def failJobsBody (i : FailInput) (select : Job → Bool) (db : Database) : Reply (List Job) :=
  let deleted := db.jobs.filter select
  let retried := retriedJobs i db.jobs deleted
  let failed := failedJobs deleted retried.2
  match insertOrRaise jobIndexes retried.1 (failed.map (failedRow i)) with
  | none => .error .uniqueViolation
  | some rows =>
    let results := failResults i retried.2 failed
    match insertOrRaise jobIndexes rows (dlqJobs i db results) with
    | none => .error .uniqueViolation
    | some jobs => .ok ({ db with jobs }, results.map Prod.snd)

/-- The rows `failJobsById` selects. -/
def failSelects (name : String) (ids : List Uuid) (attempts : Option (List JobAttempt)) (j : Job) : Bool :=
  named name ids j && decide (j.state < .completed) && fence attempts j

/-- `failJobsById`. -/
def failJobsById (i : FailInput) (name : String) (ids : List Uuid)
    (attempts : Option (List JobAttempt)) (db : Database) : Reply (List Job) :=
  failJobsBody { i with forceTerminal := false } (failSelects name ids attempts) db

/-- The rows the per-job-output failures select. -/
def failItemSelects (name : String) (items : List (JobAttempt × Option Json)) (j : Job) : Bool :=
  decide (j.name = name) && attemptFence (items.map Prod.fst) j

/-- The output the `output_map` CTE holds for an id. -/
def outputById (items : List (JobAttempt × Option Json)) (j : Job) : Option Json :=
  ((items.find? fun item => item.1.id = j.id).map Prod.snd).getD none

/-- `failJobsByIdWithOutputs`, and `deadLetterJobsByIdWithOutputs` when `terminal`. -/
def failJobsByIdWithOutputs (i : FailInput) (name : String) (items : List (JobAttempt × Option Json))
    (terminal : Bool) (db : Database) : Reply (List Job) :=
  failJobsBody { i with output := outputById items, forceTerminal := terminal } (failItemSelects name items) db

/-- The two supervisor sweeps. -/
inductive Expiry
  | timeout
  | heartbeat
  deriving DecidableEq, Repr

/-- The output a sweep stores. -/
def Expiry.output : Expiry → Json
  | .timeout => "\x7b\"value\": \x7b\"message\": \"job timed out\"\x7d\x7d"
  | .heartbeat => "\x7b\"value\": \x7b\"message\": \"job heartbeat timeout\"\x7d\x7d"

/-- `timedOut` and `heartbeatLost`, on the rows of one table. -/
def Expiry.predicate (kind : Expiry) (now : Timestamp) (table : String) (queues : List String)
    (db : Database) (j : Job) : Bool :=
  decide (db.table j.name = some table) && decide (j.state = .active) && decide (j.name ∈ queues) &&
    match kind with
    | .timeout => j.startedOn.any fun started => decide (started + seconds j.expireSeconds < now)
    | .heartbeat =>
      match j.heartbeatOn, j.heartbeatSeconds with
      | some beat, some allowed => decide (beat + seconds allowed < now)
      | _, _ => false

/-- The `picked` CTE: at most `limit` matching ids, in no order. -/
def expiryPicked (kind : Expiry) (now : Timestamp) (table : String) (queues : List String) (limit : ℕ)
    (db : Database) : List Uuid :=
  ((db.jobs.filter (kind.predicate now table queues db)).take limit).map Job.id

/-- The rows one batch of a sweep selects. The ids picked say nothing about the queue. -/
def expirySelects (kind : Expiry) (now : Timestamp) (table : String) (queues : List String) (limit : ℕ)
    (db : Database) (j : Job) : Bool :=
  kind.predicate now table queues db j && decide (j.id ∈ expiryPicked kind now table queues limit db)

/-- `expireJobs`: `failJobsByTimeout` or `failJobsByHeartbeat`, one batch. -/
def expireJobs (i : FailInput) (kind : Expiry) (table : String) (queues : List String) (limit : ℕ)
    (db : Database) : Reply (List Job) :=
  failJobsBody { i with output := fun _ => some kind.output, forceTerminal := false }
    (expirySelects kind i.now table queues limit db) db

/-- The calls that reach the failure statement: `fail()`, the per-job settles, and the sweeps. -/
inductive FailCall
  | fail (name : String) (ids : List Uuid) (attempts : Option (List JobAttempt))
  | failWithOutputs (name : String) (items : List (JobAttempt × Option Json)) (terminal : Bool)
  | expire (kind : Expiry) (table : String) (queues : List String) (limit : ℕ)
  deriving DecidableEq, Repr

namespace FailCall

/-- The output and the terminal flag the call sets. -/
def input (i : FailInput) : FailCall → FailInput
  | fail _ _ _ => { i with forceTerminal := false }
  | failWithOutputs _ items terminal => { i with output := outputById items, forceTerminal := terminal }
  | expire kind _ _ _ => { i with output := fun _ => some kind.output, forceTerminal := false }

/-- The rows the call selects. -/
def selects (now : Timestamp) (db : Database) : FailCall → Job → Bool
  | fail name ids attempts => failSelects name ids attempts
  | failWithOutputs name items _ => failItemSelects name items
  | expire kind table queues limit => expirySelects kind now table queues limit db

/-- The statement of the call. -/
def run (i : FailInput) (db : Database) : FailCall → Reply (List Job)
  | fail name ids attempts => failJobsById i name ids attempts db
  | failWithOutputs name items terminal => failJobsByIdWithOutputs i name items terminal db
  | expire kind table queues limit => expireJobs i kind table queues limit db

theorem run_eq (c : FailCall) (i : FailInput) (db : Database) :
    c.run i db = failJobsBody (c.input i) (c.selects i.now db) db := by
  cases c <;> rfl

end FailCall

end PgBoss
