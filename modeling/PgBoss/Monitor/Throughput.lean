import PgBoss.Plans.Stats
import PgBoss.Tiling.Marks

/-!
# Monitor passes on a queue

Passes of any number of instances, counting and not, run on one queue. A pass's transaction begins,
its statement takes a snapshot of the queue row and the job rows, tries the advisory lock, and, past
it, updates the queue row as that then is. What an update writes shows when its transaction commits.
Job transactions commit in between.
-/

namespace PgBoss

/-- A pass: when its transaction began, whether it counts and whether it takes the lock, how far apart its
instance's passes are, what its statement's snapshot holds, and whether it goes on past the lock. -/
structure StatsPass where
  jobNow : ℤ
  throughput : Bool
  advisoryLock : Bool
  passSeconds : ℤ
  snapshot : Option (Option ℤ × List Job) := none
  got : Bool := false

/-- A pass that counted: the end of its window, its reset threshold, what its snapshot held of `delta_on` and
the jobs, and `delta_on` in the row it updated. -/
structure CountedPass where
  stop : ℤ
  resetMax : ℤ
  seenOn : Option ℤ
  seen : List Job
  before : Option ℤ

/-- A pass as it counts. -/
def StatsPass.counts (p : StatsPass) (snapshot : Option ℤ × List Job) (before : Option ℤ) : CountedPass where
  stop := deltaWindowEnd p.jobNow
  resetMax := deltaResetMax p.passSeconds
  seenOn := snapshot.1
  seen := snapshot.2
  before := before

/-- What a job is stamped for: that it was created, or that it finished. -/
inductive StampKind
  | creation | finish
  deriving DecidableEq, Repr

/-- The stamp on a job, where it has one. -/
def Job.stamped (j : Job) : StampKind → Option ℤ
  | .creation => some j.createdOn
  | .finish => if j.state = .completed ∨ j.state = .failed then j.completedOn else none

/-- The rows a stamp of a kind is counted of: by `createdDelta`, or by `completedDelta` and `failedDelta`. -/
def countedIn (name : String) (kind : StampKind) (start : Option ℤ) (stop : ℤ) (jobs : List Job) : List Job :=
  match kind with
  | .creation => createdIn name start stop jobs
  | .finish => finishedIn name .completed start stop jobs ++ finishedIn name .failed start stop jobs

/-- The job rows, the throughput columns of the queue row, the latest reading of the clock, the holder of the
advisory lock, the passes under way, and those that counted, the last one first. -/
structure MonitorWorld (ι : Type*) where
  jobs : List Job
  queue : Throughput
  clock : ℤ
  lock : Option ι := none
  passes : ι → Option StatsPass
  counted : List CountedPass := []

namespace MonitorWorld

variable {ι : Type*} [DecidableEq ι]

/-- A pass's transaction ends, and gives the lock back. -/
def ended (w : MonitorWorld ι) (i : ι) : MonitorWorld ι :=
  { w with
    passes := Function.update w.passes i none
    lock := if w.lock = some i then none else w.lock }

/-- `tryAdvisoryLock`: a pass that finds the lock held updates nothing. -/
def tryAdvisoryLock (w : MonitorWorld ι) (i : ι) (p : StatsPass) : MonitorWorld ι :=
  let past : MonitorWorld ι := { w with passes := Function.update w.passes i (some { p with got := true }) }
  if p.advisoryLock then
    match w.lock with
    | none => { past with lock := some i }
    | some _ => w.ended i
  else past

/-- `cacheQueueStats`: a pass that counts writes its counters and moves `delta_on`. -/
def cacheQueueStats (name : String) (w : MonitorWorld ι) (i : ι) (p : StatsPass) (snapshot : Option ℤ × List Job) :
    MonitorWorld ι :=
  if p.throughput then
    let stop := deltaWindowEnd p.jobNow
    let resetMax := deltaResetMax p.passSeconds
    let stats := getQueueStats name snapshot.1 stop resetMax snapshot.2
    { w.ended i with
      queue := throughputAssignments stats stop resetMax w.queue
      counted := p.counts snapshot w.queue.deltaOn :: w.counted }
  else w.ended i

/-- A job transaction commits: a stamp that it brings is not further behind than the lag. -/
structure Commits (w : MonitorWorld ι) (jobs' : List Job) : Prop where
  keys : (jobs'.map Job.jobKey).Nodup
  lag : ∀ kind, ∀ j ∈ jobs', ∀ c, j.stamped kind = some c →
    (∃ i ∈ w.jobs, i.jobKey = j.jobKey ∧ i.stamped kind = some c) ∨ w.clock ≤ c + deltaLag

/-- A step of a pass, which counts where it `may`, or of a job transaction. -/
inductive Step (name : String) (may : CountedPass → Prop) : MonitorWorld ι → MonitorWorld ι → Prop
  | begin {w : MonitorWorld ι} (i : ι) (p : StatsPass) (hidle : w.passes i = none) (hsnapshot : p.snapshot = none)
      (hgot : p.got = false) :
      Step name may w { w with
        clock := max w.clock p.jobNow
        passes := Function.update w.passes i (some p) }
  | snapshot {w : MonitorWorld ι} (i : ι) (p : StatsPass) (hp : w.passes i = some p) (hsnapshot : p.snapshot = none) :
      Step name may w { w with
        passes := Function.update w.passes i (some { p with snapshot := some (w.queue.deltaOn, w.jobs) }) }
  | tryLock {w : MonitorWorld ι} (i : ι) (p : StatsPass) (snapshot : Option ℤ × List Job) (hp : w.passes i = some p)
      (hsnapshot : p.snapshot = some snapshot) (hgot : p.got = false) : Step name may w (w.tryAdvisoryLock i p)
  | update {w : MonitorWorld ι} (i : ι) (p : StatsPass) (snapshot : Option ℤ × List Job) (hp : w.passes i = some p)
      (hsnapshot : p.snapshot = some snapshot) (hgot : p.got = true)
      (hmay : p.throughput = true → may (p.counts snapshot w.queue.deltaOn)) :
      Step name may w (w.cacheQueueStats name i p snapshot)
  | abort {w : MonitorWorld ι} (i : ι) : Step name may w (w.ended i)
  | commit {w : MonitorWorld ι} (jobs' : List Job) (h : w.Commits jobs') : Step name may w { w with jobs := jobs' }

/-- A run of steps. -/
def Run (name : String) (may : CountedPass → Prop) : MonitorWorld ι → MonitorWorld ι → Prop :=
  Relation.ReflTransGen (Step name may)

/-- No pass is under way, and none has counted. -/
structure Start (w : MonitorWorld ι) : Prop where
  keys : (w.jobs.map Job.jobKey).Nodup
  lock : w.lock = none
  passes : ∀ i, w.passes i = none
  counted : w.counted = []

end MonitorWorld

namespace CountedPass

/-- The instants of a window that starts from a `delta_on`. -/
def windowFrom (p : CountedPass) (deltaOn : Option ℤ) : Set ℤ :=
  {x | inWindow (deltaWindowStart deltaOn p.stop p.resetMax) p.stop (some x) = true}

/-- The window of a counted pass. -/
def window (p : CountedPass) : Set ℤ := p.windowFrom p.seenOn

/-- The `delta_on` a counted pass leaves. -/
def after (p : CountedPass) : ℤ := greatest p.before p.stop

/-- The gap a counted pass starts afresh after: wider than its threshold. -/
def gap (p : CountedPass) : Set ℤ := {x | ∃ b, p.before = some b ∧ b + p.resetMax < p.stop ∧ x ∈ Set.Ico b p.stop}

/-- How often a counted pass's deltas hold a stamp of a job. -/
def tally (name : String) (kind : StampKind) (key : JobKey) (stamp : ℤ) (p : CountedPass) : ℕ :=
  (countedIn name kind (deltaWindowStart p.seenOn p.stop p.resetMax) p.stop p.seen).countP fun j =>
    decide (j.jobKey = key) && decide (j.stamped kind = some stamp)

end CountedPass

end PgBoss
