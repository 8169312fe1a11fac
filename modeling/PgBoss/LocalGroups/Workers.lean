import PgBoss.LocalGroups.Slots
import PgBoss.Permits.Ledger

/-!
# The workers of a queue in one process

Every `work()` of the queue passes the same `localGroupConcurrency`. What a worker, an `offWork()` or a `stop()`
does from one wait to the next is one step, and so are a worker's exit and its removal. What the waits bring is
free: the jobs a fetch returns, which restore or fail rejects, when a handler settles and when its wait is cut
short by its timeout or by an abort.

A batch outlives its worker's interest in it: a handler that outran its timeout, and whose worker was stopped,
runs on with its slots, which are given back when it settles.
-/

namespace PgBoss

/-- Where a worker's loop is. -/
inductive WorkerPhase
  | between
  | fetching (ignoreGroups : String → Bool)
  | onFetch
  | exited

/-- A worker of the queue. -/
structure QueueWorker where
  workId : ℕ := 0
  phase : WorkerPhase := .exited
  /-- `stop()` was called: `stopping`, or `stopped` by now, and `stopSignal` aborted. -/
  stopping : Bool := false
  graceExpired : Bool := false

/-- The worker has left its loop. -/
def QueueWorker.exited (worker : QueueWorker) : Bool :=
  match worker.phase with
  | .exited => true
  | _ => false

/-- Where a fetched batch is. -/
inductive BatchPhase
  | restoring
  /-- In `#processJobs`, before the handler is called. -/
  | starting
  | racing
  /-- The handler returned, threw or was not waited for any longer; the batch is being settled. -/
  | settling
  /-- `#awaitHandlerOverrun`. -/
  | overrun
  /-- `onFetch` is over; the handler runs on, and its promise gives the slots back. -/
  | abandoned
  | ended
  deriving DecidableEq, Repr

/-- What has become of a batch's handler. -/
inductive HandlerPhase
  | uncalled | running | settled
  deriving DecidableEq, Repr

/-- A fetched batch. -/
structure FetchedBatch where
  worker : ℕ := 0
  jobs : List Job := []
  allowed : List Job := []
  excess : List Job := []
  groupedJobs : List Job := []
  phase : BatchPhase := .ended
  handler : HandlerPhase := .uncalled
  /-- The excess went back to created. -/
  restored : Bool := false
  /-- The allowed jobs were failed without their handler. -/
  failed : Bool := false

namespace FetchedBatch

/-- A handler has the job. -/
def Handed (batch : FetchedBatch) (job : Job) : Prop := job ∈ batch.allowed ∧ batch.handler ≠ .uncalled

/-- The job's claim was given up: it was restored, or failed before its handler was called. -/
def GivenBack (batch : FetchedBatch) (job : Job) : Prop :=
  job ∈ batch.excess ∧ batch.restored = true ∨ job ∈ batch.allowed ∧ batch.failed = true

/-- `onFetch` is still at the batch. -/
def underWay (batch : FetchedBatch) : Prop := batch.phase ≠ .abandoned ∧ batch.phase ≠ .ended

/-- The jobs of a group that the batch's handler is running. -/
def running (batch : FetchedBatch) (group : String) : ℕ :=
  if batch.handler = .running then groupCount group batch.allowed else 0

end FetchedBatch

/-- A queue's workers, its batches, and its entries of the manager's maps. -/
structure QueueWorkers where
  /-- `Manager.stopped`. -/
  stopped : Bool := false
  /-- `Manager.stop()` has yet to clear the configuration. -/
  clearing : Bool := false
  /-- `#localGroupConfig`, and with it `#localGroupMaxLimit`. -/
  config : Option GroupConcurrency := none
  /-- `#localGroupActive`. -/
  active : String → ℕ := fun _ => 0
  made : ℕ := 0
  workers : ℕ → QueueWorker := fun _ => {}
  /-- The workers whose end an `offWork()` waits for. -/
  cleanups : List (List ℕ) := []
  fetched : ℕ := 0
  batches : ℕ → FetchedBatch := fun _ => {}

/-- What may go wrong beside a failing fetch. -/
inductive Mishap
  /-- A fetch lands with the configuration deleted. -/
  | unconfigured
  | restoreFailed
  /-- The fail of a batch whose handler was not called. -/
  | failFailed
  /-- A listener of `wip` or of `warning` threw. -/
  | wipThrew
  | warningThrew
  deriving DecidableEq, Repr

namespace QueueWorkers

/-- A worker's loop goes on. -/
def setPhase (w : QueueWorkers) (k : ℕ) (phase : WorkerPhase) : QueueWorkers :=
  { w with workers := Function.update w.workers k { w.workers k with phase := phase } }

/-- A batch goes on. -/
def setBatch (w : QueueWorkers) (b : ℕ) (batch : FetchedBatch) : QueueWorkers :=
  { w with batches := Function.update w.batches b batch }

/-- The jobs of a group that handlers are running. -/
def running (w : QueueWorkers) (group : String) : ℕ := ∑ b ∈ Finset.range w.fetched, (w.batches b).running group

/-- `work()`, with its workers' first fetches. -/
def work (config : GroupConcurrency) (localConcurrency : ℕ) (w : QueueWorkers) : QueueWorkers :=
  { w with
    config := some config
    made := w.made + localConcurrency
    workers := fun k =>
      if w.made ≤ k ∧ k < w.made + localConcurrency then
        { workId := w.made, phase := .fetching (getGroupsAtLocalCapacity (some config) w.active) }
      else w.workers k }

/-- `fetch()`. -/
def fetch (w : QueueWorkers) (k : ℕ) : QueueWorkers :=
  w.setPhase k (.fetching (getGroupsAtLocalCapacity w.config w.active))

/-- `onFetch`, up to its first wait. -/
def onFetch (w : QueueWorkers) (k : ℕ) (jobs : List Job) : QueueWorkers :=
  let start := trackLocalGroupStart w.config w.active jobs
  { w.setPhase k .onFetch with
    active := start.active
    fetched := w.fetched + 1
    batches := Function.update w.batches w.fetched
      { worker := k, jobs := jobs, allowed := start.allowed, excess := start.excess, groupedJobs := start.groupedJobs
        phase := if start.excess.isEmpty then .starting else .restoring } }

/-- `onFetch`, whose `emitWip` threw. -/
def wipThrew (w : QueueWorkers) (k : ℕ) (jobs : List Job) : QueueWorkers :=
  { w.setPhase k .between with
    fetched := w.fetched + 1
    batches := Function.update w.batches w.fetched { worker := k, jobs := jobs } }

/-- `onFetch`, in its `finally` without an abandoned handler. -/
def finish (w : QueueWorkers) (b : ℕ) (batch : FetchedBatch) : QueueWorkers :=
  { w.setPhase batch.worker .between with
    active := trackLocalGroupEnd w.active batch.groupedJobs
    batches := Function.update w.batches b { batch with phase := .ended } }

/-- `onFetch`, in its `finally` with an abandoned handler. -/
def abandon (w : QueueWorkers) (b : ℕ) (batch : FetchedBatch) : QueueWorkers :=
  (w.setPhase batch.worker .between).setBatch b { batch with phase := .abandoned }

/-- The restore of the excess returned. -/
def restored (w : QueueWorkers) (b : ℕ) : QueueWorkers :=
  let batch := { w.batches b with restored := true }
  if batch.allowed.isEmpty then w.finish b batch else w.setBatch b { batch with phase := .starting }

/-- A handler returned or threw. -/
def handlerSettled (w : QueueWorkers) (b : ℕ) : QueueWorkers :=
  let batch := { w.batches b with handler := .settled }
  if batch.phase = .abandoned then
    { w with active := trackLocalGroupEnd w.active batch.groupedJobs }.setBatch b { batch with phase := .ended }
  else w.setBatch b batch

/-- `#processJobs` is done with its batch, and the handler's overrun is next. -/
def settled (w : QueueWorkers) (b : ℕ) : QueueWorkers :=
  let batch := w.batches b
  if batch.handler ≠ .running then w.finish b batch
  else if (w.workers batch.worker).stopping then w.abandon b batch
  else w.setBatch b { batch with phase := .overrun }

/-- The wait for an overrunning handler ended. -/
def waitEnded (w : QueueWorkers) (b : ℕ) : QueueWorkers :=
  let batch := w.batches b
  if batch.handler = .running then w.abandon b batch else w.finish b batch

/-- The workers an `offWork()` matches. -/
def matched (w : QueueWorkers) (id : Option ℕ) : List ℕ :=
  (List.range w.made).filter fun k =>
    !(w.workers k).exited && id.all fun id => decide (k = id) || decide ((w.workers k).workId = id)

/-- `offWork()`, up to its wait. -/
def offWork (w : QueueWorkers) (id : Option ℕ) : QueueWorkers :=
  if (w.matched id).isEmpty then w
  else
    { w with
      workers := fun k => if k ∈ w.matched id then { w.workers k with stopping := true } else w.workers k
      cleanups := w.matched id :: w.cleanups }

/-- `#cleanupLocalGroupTracking`, at the end of an `offWork()`. -/
def cleanedUp (w : QueueWorkers) (cleanup : List ℕ) : QueueWorkers :=
  let hasWorkersForQueue := (List.range w.made).any fun k => !(w.workers k).exited && !(w.workers k).stopping
  { w with
    cleanups := w.cleanups.erase cleanup
    config := if hasWorkersForQueue then w.config else none }

/-- `Manager.stop()`, up to the clearing of the configuration. -/
def stop (w : QueueWorkers) : QueueWorkers := { w.offWork none with stopped := true, clearing := true }

/-- One stretch of the queue's part of the manager. `may` says what may go wrong. -/
inductive Step (config : GroupConcurrency) (may : Mishap → Prop) (w : QueueWorkers) : QueueWorkers → Prop
  | work (localConcurrency : ℕ) (hstopped : w.stopped = false) : Step config may w (w.work config localConcurrency)
  | fetch (k : ℕ) (hphase : (w.workers k).phase = .between) (hstopping : (w.workers k).stopping = false) :
      Step config may w (w.fetch k)
  | fetchedNone (k : ℕ) (ignoreGroups : String → Bool) (hphase : (w.workers k).phase = .fetching ignoreGroups) :
      Step config may w (w.setPhase k .between)
  | onFetch (k : ℕ) (ignoreGroups : String → Bool) (jobs : List Job)
      (hphase : (w.workers k).phase = .fetching ignoreGroups) (hjobs : jobs ≠ [])
      (hignored : ∀ job ∈ jobs, ∀ group, job.groupId = some group → ignoreGroups group = false)
      (hmay : w.config = none → may .unconfigured) : Step config may w (w.onFetch k jobs)
  | wipThrew (k : ℕ) (ignoreGroups : String → Bool) (jobs : List Job)
      (hphase : (w.workers k).phase = .fetching ignoreGroups) (hjobs : jobs ≠ []) (hmay : may .wipThrew) :
      Step config may w (w.wipThrew k jobs)
  | restored (b : ℕ) (hphase : (w.batches b).phase = .restoring) : Step config may w (w.restored b)
  | restoreFailed (b : ℕ) (hphase : (w.batches b).phase = .restoring) (hmay : may .restoreFailed) :
      Step config may w (w.finish b (w.batches b))
  | handlerCalled (b : ℕ) (hphase : (w.batches b).phase = .starting)
      (hgrace : (w.workers (w.batches b).worker).graceExpired = false) :
      Step config may w (w.setBatch b { w.batches b with phase := .racing, handler := .running })
  | refused (b : ℕ) (hphase : (w.batches b).phase = .starting) :
      Step config may w (w.finish b { w.batches b with failed := true })
  | failFailed (b : ℕ) (hphase : (w.batches b).phase = .starting) (hmay : may .failFailed) :
      Step config may w (w.finish b (w.batches b))
  | handlerSettled (b : ℕ) (hhandler : (w.batches b).handler = .running) : Step config may w (w.handlerSettled b)
  | raceEnded (b : ℕ) (hphase : (w.batches b).phase = .racing) :
      Step config may w (w.setBatch b { w.batches b with phase := .settling })
  | settled (b : ℕ) (hphase : (w.batches b).phase = .settling) : Step config may w (w.settled b)
  | warningThrew (b : ℕ) (hphase : (w.batches b).phase = .settling) (hhandler : (w.batches b).handler = .running)
      (hstopping : (w.workers (w.batches b).worker).stopping = false) (hmay : may .warningThrew) :
      Step config may w (w.finish b (w.batches b))
  | waitEnded (b : ℕ) (hphase : (w.batches b).phase = .overrun)
      (hended : (w.batches b).handler ≠ .running ∨ (w.workers (w.batches b).worker).stopping = true) :
      Step config may w (w.waitEnded b)
  | exited (k : ℕ) (hphase : (w.workers k).phase = .between) (hstopping : (w.workers k).stopping = true) :
      Step config may w (w.setPhase k .exited)
  | offWork (id : Option ℕ) : Step config may w (w.offWork id)
  | cleanedUp (cleanup : List ℕ) (hcleanup : cleanup ∈ w.cleanups)
      (hexited : ∀ k ∈ cleanup, (w.workers k).exited = true) : Step config may w (w.cleanedUp cleanup)
  | stop : Step config may w w.stop
  | cleared (hclearing : w.clearing = true) : Step config may w { w with config := none, clearing := false }
  | failWip : Step config may w { w with workers := fun k => { w.workers k with graceExpired := true } }
  | start : Step config may w { w with stopped := false }

/-- Any number of steps. -/
abbrev Run (config : GroupConcurrency) (may : Mishap → Prop) : QueueWorkers → QueueWorkers → Prop :=
  Relation.ReflTransGen (Step config may)

end QueueWorkers

end PgBoss
