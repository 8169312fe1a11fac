import PgBoss.Plans.Stats
import PgBoss.Tiling.Buckets

/-!
# True-up of the recorded counters

A snapshot of a queue does not store its window. The recent windows are rebuilt from the ends that
the snapshots recorded, above an anchor, and a recount of the job table raises the counters that fell
short. The monitor's check computes the same anchor in another shape. Times are microseconds.
-/

namespace PgBoss

/-- What a counting pass recorded in a snapshot. -/
structure RecordedDelta extends QueueStats where
  deltaSeconds : Option Int
  deltaOn : Int
  deriving DecidableEq, Repr

/-- `(id, captured_on)`. -/
abbrev StatsKey := Uuid × Int

/-- A row of `queue_stats`. The counters are null together with `delta_on`, in a snapshot of a queue that was
never counted. -/
structure StatsRow where
  id : Uuid
  name : String
  capturedOn : Int
  delta : Option RecordedDelta
  deriving DecidableEq, Repr

/-- The primary key columns of a snapshot. -/
def StatsRow.key (s : StatsRow) : StatsKey := (s.id, s.capturedOn)

/-- `DELTA_TRUE_UP_MAX`. -/
def deltaTrueUpMax : Int := 3600 * microsPerSecond

/-- `trueUpReach`: what a snapshot in reach recorded. -/
def trueUpReach (now : Int) (s : StatsRow) : Option RecordedDelta :=
  if s.capturedOn ≥ now - 2 * deltaTrueUpMax then s.delta else none

/-- `trueUpAnchor`. -/
def trueUpAnchor (now : Int) (d : RecordedDelta) : Bool :=
  decide (d.deltaOn ≤ now - deltaTrueUpMax) || d.deltaSeconds.isNone

/-- The shorter of the queue's two retentions, in seconds. -/
def shorterRetention (q : Queue) : Int :=
  if q.deletionSeconds > 0 ∧ q.deletionSeconds < q.retentionSeconds then q.deletionSeconds else q.retentionSeconds

/-- `trueUpRetentionFloor`. -/
def trueUpRetentionFloor (now : Int) (q : Queue) (d : RecordedDelta) : Bool :=
  decide (d.deltaOn ≥ now - shorterRetention q * microsPerSecond)

/-- `trueUpAnchorAt`. -/
def trueUpAnchorAt : Option Int → Option Int → Option Int
  | _, none => none
  | none, some _ => none
  | some b, some f => if f > b then some f else some b

/-- A snapshot in reach, beside its queue row. -/
structure ReachedRow where
  key : StatsKey
  delta : RecordedDelta
  queue : Queue
  deriving DecidableEq, Repr

/-- The rows that `trueUpWindows` reads: snapshots in reach of the queues asked for, joined to their queues. -/
def reachedRows (now : Int) (queues : List Queue) (names : List String) (rows : List StatsRow) : List ReachedRow :=
  rows.filterMap fun s =>
    if s.name ∈ names then
      (queues.find? fun q => q.name = s.name).bind fun q => (trueUpReach now s).map fun d => ⟨s.key, d, q⟩
    else none

/-- A row of `trueUpWindows`: a snapshot in reach with its queue's anchor. -/
structure TrueUpRow where
  key : StatsKey
  name : String
  delta : RecordedDelta
  h : Option Int
  deriving DecidableEq, Repr

/-- The anchor as a window aggregate over the rows of one queue. -/
def partitionAnchor (now : Int) (partition : List ReachedRow) : Option Int :=
  trueUpAnchorAt
    (((partition.filterMap fun y => if trueUpAnchor now y.delta then some y.delta.deltaOn else none).max?).or
      (partition.map fun y => y.delta.deltaOn).min?)
    (partition.filterMap fun y => if trueUpRetentionFloor now y.queue y.delta then some y.delta.deltaOn else none).min?

/-- `trueUpWindows`. -/
def trueUpWindows (now : Int) (queues : List Queue) (names : List String) (rows : List StatsRow) : List TrueUpRow :=
  (reachedRows now queues names rows).map fun x =>
    { key := x.key
      name := x.queue.name
      delta := x.delta
      h := partitionAnchor now ((reachedRows now queues names rows).filter fun y => y.queue.name = x.queue.name) }

/-- The snapshots of one queue in reach, as the laterals of `trueUpSettled` look them up. -/
def settledReach (now : Int) (q : Queue) (rows : List StatsRow) : List (StatsKey × RecordedDelta) :=
  rows.filterMap fun s => if s.name = q.name then (trueUpReach now s).map fun d => (s.key, d) else none

/-- The first lateral of `trueUpSettled`: the anchor. -/
def settledAnchor (now : Int) (q : Queue) (rows : List StatsRow) : Option Int :=
  let reach := settledReach now q rows
  trueUpAnchorAt
    ((((reach.filter fun s => trueUpAnchor now s.2).map fun s => s.2.deltaOn).max?).or
      (reach.map fun s => s.2.deltaOn).min?)
    ((reach.filter fun s => trueUpRetentionFloor now q s.2).map fun s => s.2.deltaOn).min?

/-- The rows of the second lateral of `trueUpSettled`: the windows past the anchor. -/
def settledWindows (now : Int) (q : Queue) (rows : List StatsRow) : List (StatsKey × RecordedDelta) :=
  (settledReach now q rows).filter fun s => (settledAnchor now q rows).any fun h => decide (h < s.2.deltaOn)

/-- All that a counting pass counted, in one number. -/
def QueueStats.total (s : QueueStats) : ℕ := s.createdDelta + s.completedDelta + s.failedDelta

/-- `max(s.delta_on)` over the second lateral of `trueUpSettled`. -/
def settledTop (now : Int) (q : Queue) (rows : List StatsRow) : Option Int :=
  ((settledWindows now q rows).map fun s => s.2.deltaOn).max?

/-- `sum(...)` over the second lateral of `trueUpSettled`: null over no rows. -/
def settledSum (now : Int) (q : Queue) (rows : List StatsRow) : Option ℕ :=
  match settledWindows now q rows with
  | [] => none
  | windows => some (windows.map fun s => s.2.total).sum

/-- The states that `getQueueStats` calls finished. -/
def JobState.isFinished (s : JobState) : Bool := decide (s = .completed) || decide (s = .failed)

/-- `recreated.n + refinished.n` of `getQueueStats`: null bounds select nothing. -/
def trueUpRecount (name : String) (h top : Option Int) (jobs : List Job) : ℕ :=
  top.elim 0 fun top =>
    (createdIn name h top jobs).length +
      (jobs.filter fun j => decide (j.name = name) && j.state.isFinished && inWindow h top j.completedOn).length

/-- The `trueUp` flag of `getQueueStats`. -/
def trueUpFlag (now : Int) (q : Queue) (jobs : List Job) (rows : List StatsRow) : Bool :=
  (settledSum now q rows).any fun settled =>
    decide (settled < trueUpRecount q.name (settledAnchor now q rows) (settledTop now q rows) jobs)

/-- A row of `win`: a window past the anchor. -/
structure TrueUpWindow where
  key : StatsKey
  delta : RecordedDelta
  h : Int
  deriving DecidableEq, Repr

/-- `ORDER BY delta_on, captured_on`. Of rows that agree on both, the one the plan reads first goes first. -/
def TrueUpWindow.before (rank : StatsKey → ℕ) (a b : TrueUpWindow) : Prop :=
  a.delta.deltaOn < b.delta.deltaOn ∨ a.delta.deltaOn = b.delta.deltaOn ∧
    (a.key.2 < b.key.2 ∨ a.key.2 = b.key.2 ∧ rank a.key ≤ rank b.key)

instance (rank : StatsKey → ℕ) : DecidableRel (TrueUpWindow.before rank) :=
  fun _ _ => inferInstanceAs (Decidable (_ ∨ _))

/-- The `win` CTE of `trueUpQueueStats`, the rows of one queue in the order of `i`. -/
def trueUpWin (now : Int) (rank : StatsKey → ℕ) (queues : List Queue) (names : List String) (rows : List StatsRow)
    (name : String) : List TrueUpWindow :=
  ((trueUpWindows now queues names rows).filterMap fun w =>
    if w.name = name then
      w.h.bind fun h => if w.delta.deltaOn > h then some ⟨w.key, w.delta, h⟩ else none
    else none).insertionSort (TrueUpWindow.before rank)

/-- The `th` CTE: `array_prepend(w.h, array_agg(w.delta_on ORDER BY w.i))`. -/
def trueUpThresholds : List TrueUpWindow → List Int
  | [] => []
  | w :: win => w.h :: (w :: win).map fun w => w.delta.deltaOn

/-- The jobs that `binned` places by `created_on` in the bucket `i`. -/
def createdBin (t : List Int) (name : String) (i : ℕ) (jobs : List Job) : List Job :=
  jobs.filter fun j => decide (j.name = name) && t.head?.any (fun h => decide (j.createdOn ≥ h)) &&
    decide (Tiling.bucket t j.createdOn = i)

/-- The jobs of a state that `binned` places by `completed_on` in the bucket `i`. -/
def finishedBin (t : List Int) (name : String) (state : JobState) (i : ℕ) (jobs : List Job) : List Job :=
  jobs.filter fun j => decide (j.name = name) && decide (j.state = state) && j.completedOn.any fun c =>
    t.head?.any (fun h => decide (c ≥ h)) && decide (Tiling.bucket t c = i)

/-- The `recount` CTE: what the job table holds in the bucket `i`. A bucket that nothing is placed in has no row
there, and raises nothing, as these zeros do. -/
def binCount (t : List Int) (name : String) (i : ℕ) (jobs : List Job) : QueueStats where
  createdDelta := (createdBin t name i jobs).length
  completedDelta := (finishedBin t name .completed i jobs).length
  failedDelta := (finishedBin t name .failed i jobs).length

/-- `GREATEST` of each counter, as `raised` assigns them. -/
def RecordedDelta.raise (d : RecordedDelta) (r : QueueStats) : RecordedDelta :=
  { d with
    createdDelta := max d.createdDelta r.createdDelta
    completedDelta := max d.completedDelta r.completedDelta
    failedDelta := max d.failedDelta r.failedDelta }

/-- The `raised` CTE on one snapshot, with the windows of its queue. -/
def raisedRow (win : List TrueUpWindow) (jobs : List Job) (s : StatsRow) : StatsRow :=
  match win.findIdx? fun w => w.key = s.key with
  | none => s
  | some i => { s with delta := s.delta.map fun d => d.raise (binCount (trueUpThresholds win) s.name (i + 1) jobs) }

/-- `trueUpQueueStats`, which got the stats lock. -/
def trueUpQueueStats (now : Int) (rank : StatsKey → ℕ) (queues : List Queue) (names : List String) (jobs : List Job)
    (rows : List StatsRow) : List StatsRow :=
  rows.map fun s => raisedRow (trueUpWin now rank queues names rows s.name) jobs s

end PgBoss
