import PgBoss.Plans.Stats
import PgBoss.Relational.Aggregate

/-!
# Downsampled history

`getQueueStatsHistoryBucketed`, one definition for each of its common table expressions. Gauges are
grouped by the time they were read, counters by the end of the window they count, and the two are
joined per bucket; a counter bucket without a capture is placed in another one. Dividing the epoch by
the width is exact here, as `float8` is at the resolution of a `timestamptz`.
-/

namespace PgBoss

open Relational

/-- The gauges of `queue_stats`. -/
inductive GaugeColumn
  | deferredCount | queuedCount | readyCount | activeCount | failedCount | totalCount
  deriving DecidableEq, Repr

/-- The counters of `queue_stats`. -/
inductive CounterColumn
  | createdDelta | completedDelta | failedDelta | deltaSeconds
  deriving DecidableEq, Repr

/-- `wait_bins` and `run_bins`. -/
structure Bins where
  wait : List Int
  run : List Int
  deriving DecidableEq, Repr

/-- A row of `queue_stats`. Its two histograms are null together: the statement that counts writes both. -/
structure HistoryRow where
  name : String
  gauge : GaugeColumn → Int
  counter : CounterColumn → Option Int
  deltaOn : Option Timestamp
  bins : Option Bins
  readyOldestSeconds : Option Int
  capturedOn : Timestamp

/-- The keys of `STATS_AGG`. -/
inductive StatsAggregate
  | max | min | avg
  deriving DecidableEq, Repr

/-- `round(numeric)`: a half rounds away from zero. -/
def roundNumeric (x : ℚ) : Int := if x ≥ 0 then ⌊x + 1 / 2⌋ else -⌊-x + 1 / 2⌋

/-- `STATS_AGG`. -/
def statsAgg : StatsAggregate → List Int → Option Int
  | .max, column => column.max?
  | .min, column => column.min?
  | .avg, column => if column = [] then none else some (roundNumeric ((column.sum : ℚ) / column.length))

/-- What `$5` is. -/
inductive HistoryMode
  | bucket | auto
  deriving DecidableEq, Repr

/-- The arguments of `getQueueStatsHistoryBucketed` and of its statement. `Manager.getQueueStats` asserts that the
bucket width, or the number of data points, is positive. -/
structure HistoryQuery where
  name : String
  fromTime : Option Timestamp
  toTime : Option Timestamp
  limit : ℕ
  width : ℕ
  aggregate : StatsAggregate
  mode : HistoryMode
  positive : width ≥ 1
  deriving DecidableEq, Repr

/-- `ceil(a / b)`. -/
def ceilDiv (a b : Int) : Int := -(-a / b)

/-- The bucket of an instant, for buckets of `secs` seconds aligned to the epoch. -/
def bucketOf (secs : Int) (t : Timestamp) : Timestamp :=
  t / (secs * microsPerSecond) * (secs * microsPerSecond)

namespace HistoryQuery

variable (q : HistoryQuery) (rows : List HistoryRow)

/-- `($2 IS NULL OR t >= $2) AND ($3 IS NULL OR t <= $3)`. -/
def inRange (t : Timestamp) : Bool := q.fromTime.all (fun lo => decide (t ≥ lo)) && q.toTime.all fun hi => decide (t ≤ hi)

/-- `extent`: the first and the last capture of the queue, in the range or not. -/
def extent : Option Timestamp × Option Timestamp :=
  let captured := (rows.filter fun r => decide (r.name = q.name)).map fun r => some r.capturedOn
  (Relational.aggregate min captured, Relational.aggregate max captured)

/-- `bounds`: `GREATEST` and `LEAST` skip a null. -/
def bounds : Option Timestamp × Option Timestamp :=
  let (lo, hi) := q.extent rows
  (Option.merge max (q.fromTime.or lo) lo, Option.merge min (q.toTime.or hi) hi)

/-- `w.secs`. -/
def secs : Int :=
  match q.mode, q.bounds rows with
  | .bucket, _ => max q.width 1
  | .auto, (some lo, some hi) => max 1 (ceilDiv (hi - lo) (max q.width 1 * microsPerSecond))
  | .auto, _ => 1

/-- The rows that `gauges` reads. -/
def captures : List HistoryRow := rows.filter fun r => decide (r.name = q.name) && q.inRange r.capturedOn

/-- The rows that `counters` reads, with their `delta_on`. -/
def counted : List (Timestamp × HistoryRow) :=
  rows.filterMap fun r => if r.name = q.name then (r.deltaOn.filter q.inRange).map fun d => (d, r) else none

end HistoryQuery

/-- A row of `gauges`. -/
structure GaugeRow where
  bucket : Timestamp
  gauge : GaugeColumn → Option Int

/-- A row of `counters`. -/
structure CounterRow where
  bucket : Timestamp
  counter : CounterColumn → Option Int
  deltaOn : Option Timestamp
  readyOldestSeconds : Option Int

/-- A row of `placed`. -/
structure PlacedRow where
  bucket : Option Timestamp
  gauge : GaugeColumn → Option Int
  counter : CounterColumn → Option Int
  deltaOn : Option Timestamp
  readyOldestSeconds : Option Int
  counterBucket : Option Timestamp

/-- A row of `passes`. -/
structure PassRow where
  counterBucket : Timestamp
  bins : Bins

/-- A row of `slots`. -/
structure SlotRow where
  bucket : Option Timestamp
  slot : ℕ
  w : Int
  r : Int
  deriving DecidableEq, Repr

/-- A row of `histograms`. -/
structure HistogramRow where
  bucket : Option Timestamp
  bins : Bins

/-- A row of `folded`. -/
structure FoldedRow where
  capturedOn : Timestamp
  gauge : GaugeColumn → Option Int
  counter : CounterColumn → Option Int
  deltaOn : Option Timestamp
  readyOldestSeconds : Option Int

/-- A bucket as it is returned. -/
structure BucketRow extends FoldedRow where
  bins : Option Bins

/-- `gauges`, in buckets of `secs` seconds. -/
def gauges (secs : Int) (agg : StatsAggregate) (captures : List HistoryRow) : List GaugeRow :=
  (groupBy (fun r => bucketOf secs r.capturedOn) captures).map fun (bucket, group) =>
    { bucket := bucket
      gauge := fun c => statsAgg agg (group.map fun r => r.gauge c) }

/-- A row of `counters`, over the rows of its bucket. -/
def counterRow (bucket : Timestamp) (group : List (Timestamp × HistoryRow)) : CounterRow where
  bucket := bucket
  counter c := aggregate (· + ·) (group.map fun r => r.2.counter c)
  deltaOn := aggregate max (group.map fun r => some r.1)
  readyOldestSeconds := aggregate max (group.map fun r => r.2.readyOldestSeconds)

/-- `counters`. -/
def counters (secs : Int) (counted : List (Timestamp × HistoryRow)) : List CounterRow :=
  (groupBy (fun r => bucketOf secs r.1) counted).map fun (bucket, group) => counterRow bucket group

/-- `gauges g FULL JOIN counters c ON c.bucket = g.bucket`, in the order of the window. -/
def joined (gs : List GaugeRow) (cs : List CounterRow) : List (JoinRow GaugeRow CounterRow) :=
  (fullJoin GaugeRow.bucket CounterRow.bucket gs cs).mergeSort fun x y =>
    decide (x.key GaugeRow.bucket CounterRow.bucket ≤ y.key GaugeRow.bucket CounterRow.bucket)

/-- `g.bucket`. -/
def gaugeBucket (x : JoinRow GaugeRow CounterRow) : Option Timestamp := x.left?.map GaugeRow.bucket

/-- A row of `placed`, in the bucket it was placed in. -/
def placedRow (bucket : Option Timestamp) (x : JoinRow GaugeRow CounterRow) : PlacedRow where
  bucket := bucket
  gauge c := x.left?.bind fun g => g.gauge c
  counter c := x.right?.bind fun r => r.counter c
  deltaOn := x.right?.bind fun r => r.deltaOn
  readyOldestSeconds := x.right?.bind fun r => r.readyOldestSeconds
  counterBucket := x.right?.map CounterRow.bucket

/-- `placed`. -/
def placed (gs : List GaugeRow) (cs : List CounterRow) : List PlacedRow :=
  let first := aggregate min ((joined gs cs).map gaugeBucket)
  (running max gaugeBucket none (joined gs cs)).map fun (x, newest) => placedRow (newest.or first) x

/-- `passes`. -/
def passes (secs : Int) (counted : List (Timestamp × HistoryRow)) : List PassRow :=
  counted.filterMap fun r => r.2.bins.map fun b => { counterBucket := bucketOf secs r.1, bins := b }

/-- `unnest(wait_bins, run_bins) WITH ORDINALITY`: the shorter array is padded with nulls. -/
def unnest (b : Bins) : List (ℕ × Option Int × Option Int) :=
  (List.range (max b.wait.length b.run.length)).map fun i => (i + 1, b.wait[i]?, b.run[i]?)

/-- The rows that `slots` groups, each with the bucket it goes to. -/
def slotEntries (ps : List PlacedRow) (passes : List PassRow) : List (Option Timestamp × ℕ × Option Int × Option Int) :=
  ((ps.map fun p => (p.bucket, p.counterBucket)).dedup).flatMap fun (bucket, counterBucket) =>
    (passes.filter fun pass => decide (some pass.counterBucket = counterBucket)).flatMap fun pass =>
      (unnest pass.bins).map fun u => (bucket, u)

/-- `slots`. -/
def slots (ps : List PlacedRow) (passes : List PassRow) : List SlotRow :=
  (groupBy (fun e => (e.1, e.2.1)) (slotEntries ps passes)).map fun ((bucket, slot), group) =>
    { bucket := bucket
      slot := slot
      w := (aggregate (· + ·) (group.map fun e => e.2.2.1)).getD 0
      r := (aggregate (· + ·) (group.map fun e => e.2.2.2)).getD 0 }

/-- `histograms`. -/
def histograms (ss : List SlotRow) : List HistogramRow :=
  (groupBy SlotRow.bucket ss).map fun (bucket, group) =>
    let ordered := group.mergeSort fun s s' => decide (s.slot ≤ s'.slot)
    { bucket := bucket
      bins := { wait := ordered.map SlotRow.w, run := ordered.map SlotRow.r } }

/-- A row of `folded`, over the rows of its bucket. -/
def foldedRow (bucket : Timestamp) (group : List PlacedRow) : FoldedRow where
  capturedOn := bucket
  gauge c := aggregate max (group.map fun p => p.gauge c)
  counter c := aggregate (· + ·) (group.map fun p => p.counter c)
  deltaOn := aggregate max (group.map fun p => p.deltaOn)
  readyOldestSeconds := aggregate max (group.map fun p => p.readyOldestSeconds)

/-- `folded`. -/
def folded (ps : List PlacedRow) : List FoldedRow :=
  (groupBy Prod.fst (ps.filterMap fun p => p.bucket.map fun b => (b, p))).map fun (bucket, group) =>
    foldedRow bucket (group.map Prod.snd)

/-- `folded f LEFT JOIN histograms h ON h.bucket = f."capturedOn"`, newest first. -/
def withHistograms (fs : List FoldedRow) (hs : List HistogramRow) : List BucketRow :=
  ((fs.flatMap (joinLeft (fun f => some f.capturedOn) HistogramRow.bucket hs)).filterMap fun x =>
    x.left?.map fun f => { f with bins := x.right?.map HistogramRow.bins }).mergeSort fun b b' =>
      decide (b.capturedOn ≥ b'.capturedOn)

/-- `getQueueStatsHistoryBucketed` up to its `LIMIT`. -/
def bucketedHistory (q : HistoryQuery) (rows : List HistoryRow) : List BucketRow :=
  let secs := q.secs rows
  let ps := placed (gauges secs q.aggregate (q.captures rows)) (counters secs (q.counted rows))
  withHistograms (folded ps) (histograms (slots ps (passes secs (q.counted rows))))

/-- `getQueueStatsHistoryBucketed`. -/
def getQueueStatsHistoryBucketed (q : HistoryQuery) (rows : List HistoryRow) : List BucketRow :=
  (bucketedHistory q rows).take (if q.mode = .auto then min q.limit q.width else q.limit)

end PgBoss
