import PgBoss.Schema

/-!
# Throughput counters

The statement that counts measures a window from the queue's `delta_on` to a fixed lag behind its
own transaction, counts what was created and what finished in it, and moves `delta_on` to its end.
Times are microseconds, the resolution of a `timestamp`.
-/

namespace PgBoss

/-- The throughput columns of a queue row. -/
structure Throughput where
  createdDelta : ℕ := 0
  completedDelta : ℕ := 0
  failedDelta : ℕ := 0
  deltaSeconds : Option Int := none
  deltaOn : Option Int := none
  deriving DecidableEq, Repr

/-- The counters of a `stats` row. -/
structure QueueStats where
  createdDelta : ℕ
  completedDelta : ℕ
  failedDelta : ℕ
  deriving DecidableEq, Repr

/-- `interval '1 second'`. -/
def microsPerSecond : Int := 1000000

/-- `DELTA_LAG_SECONDS`. -/
def deltaLagSeconds : Int := 10

/-- `DELTA_LAG`. -/
def deltaLag : Int := deltaLagSeconds * microsPerSecond

/-- `DELTA_RESET_MAX_SECONDS`. -/
def deltaResetMaxSeconds : Int := 2 * 60 * 60

/-- `deltaResetMax`, for an instance whose counting passes run every `intervalSeconds`. -/
def deltaResetMax (intervalSeconds : Int) : Int :=
  if intervalSeconds * 2 > deltaResetMaxSeconds then intervalSeconds * 2 * microsPerSecond
  else deltaResetMaxSeconds * microsPerSecond

/-- `deltaWindowEnd`, in a transaction that began at `jobNow`. -/
def deltaWindowEnd (jobNow : Int) : Int := jobNow - deltaLag

/-- `deltaWindowStart`: no window where `delta_on` is null or too far behind the end. -/
def deltaWindowStart (deltaOn : Option Int) (stop resetMax : Int) : Option Int :=
  deltaOn.bind fun d => if d > stop - resetMax then some d else none

/-- `x >= w_start AND x < w_end`, which a null on either side fails. -/
def inWindow (start : Option Int) (stop : Int) (x : Option Int) : Bool :=
  match start, x with
  | some start, some x => decide (x ≥ start) && decide (x < stop)
  | _, _ => false

/-- The jobs `createdDelta` counts. -/
def createdIn (name : String) (start : Option Int) (stop : Int) (jobs : List Job) : List Job :=
  jobs.filter fun j => decide (j.name = name) && inWindow start stop (some j.createdOn)

/-- The jobs `completedDelta` or `failedDelta` counts, by the state that finishes them. -/
def finishedIn (name : String) (state : JobState) (start : Option Int) (stop : Int) (jobs : List Job) : List Job :=
  jobs.filter fun j => decide (j.name = name) && decide (j.state = state) && inWindow start stop j.completedOn

/-- `getQueueStats`, the throughput counters of one queue. -/
def getQueueStats (name : String) (deltaOn : Option Int) (stop resetMax : Int) (jobs : List Job) : QueueStats :=
  let start := deltaWindowStart deltaOn stop resetMax
  { createdDelta := (createdIn name start stop jobs).length
    completedDelta := (finishedIn name .completed start stop jobs).length
    failedDelta := (finishedIn name .failed start stop jobs).length }

/-- `round(extract(epoch from interval))`: half a second rounds away from zero. -/
def roundSeconds (micros : Int) : Int :=
  if micros ≥ 0 then (micros + microsPerSecond / 2) / microsPerSecond
  else -((-micros + microsPerSecond / 2) / microsPerSecond)

/-- `GREATEST(queue.delta_on, end)`, which skips a null. -/
def greatest (deltaOn : Option Int) (stop : Int) : Int := deltaOn.elim stop fun d => max d stop

/-- `throughputAssignments`: the `SET` clause of a statement that counts. -/
def throughputAssignments (stats : QueueStats) (stop resetMax : Int) (queue : Throughput) : Throughput :=
  let seconds := (deltaWindowStart queue.deltaOn stop resetMax).map fun start => roundSeconds (stop - start)
  { createdDelta := stats.createdDelta
    completedDelta := stats.completedDelta
    failedDelta := stats.failedDelta
    deltaSeconds := seconds.map fun seconds => if seconds < 0 then 0 else seconds
    deltaOn := some (greatest queue.deltaOn stop) }

end PgBoss
