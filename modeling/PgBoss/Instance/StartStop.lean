import Mathlib

/-!
# Starting and stopping an instance

Any number of `start()` and `stop()` calls share two promise fields and two flags. A call runs
undisturbed from one wait to the next, and a step here is such a stretch. A promise is named by the
call it belongs to. That call's own `finally` was registered first, so it has cleared the field before
any other call that waited on the promise resumes; what else is called in between is free, as is
which awaited step of a start or of a stop fails.

A pool that pg-boss made is closed once: `pool.end()` rejects only when called twice.
-/

namespace PgBoss

/-- The subsystems. -/
inductive Subsystem
  | manager | notifier | boss | navigator | timekeeper | bam | registrar
  deriving DecidableEq, Repr

/-- What `index.ts` reads of the configuration. -/
structure InstanceConfig where
  /-- `#db._pgbdb`. -/
  ownPool : Bool
  /-- `isAttachable(config.clock)`. -/
  attachable : Bool
  useListenNotify : Bool
  schedule : Bool
  migrate : Bool
  deriving DecidableEq, Repr

/-- What `#doStart` waits for. -/
inductive StartStep
  | setSessionStatements | openDb | warnIfDistributedMisconfigured | contractor | attachClock | start (s : Subsystem)
  deriving DecidableEq, Repr

/-- The steps of `#doStart`. -/
def startSteps (config : InstanceConfig) : List StartStep :=
  (if config.attachable then [.setSessionStatements] else []) ++ [.openDb, .warnIfDistributedMisconfigured, .contractor] ++
    (if config.attachable then [.attachClock] else []) ++ [.start .manager] ++
    (if config.useListenNotify then [.start .notifier] else []) ++ [.start .boss, .start .navigator] ++
    (if config.schedule then [.start .timekeeper] else []) ++ (if config.migrate then [.start .bam] else []) ++
    [.start .registrar]

/-- What `#doStop` waits for. The clock's dispose is followed by the session statements' whether it fails or not. -/
inductive StopStep
  | stop (s : Subsystem) | failWip | settleCleanups | disposeClock | closePool | poolDrained
  deriving DecidableEq, Repr

/-- `#closeDb`. -/
def closeSteps (config : InstanceConfig) : List StopStep := if config.ownPool then [.closePool, .poolDrained] else []

/-- The steps of `#doStop`. -/
def stopSteps (config : InstanceConfig) (close graceful : Bool) : List StopStep :=
  [.stop .notifier, .stop .manager, .stop .timekeeper, .stop .boss, .stop .navigator, .stop .bam] ++
    (if graceful then [.settleCleanups] else []) ++ [.failWip, .settleCleanups, .stop .registrar, .disposeClock] ++
    (if close then closeSteps config else [])

/-- How a `start()` ends. It resolves with the instance as it found or made it: `#started`, and `#db.opened`. -/
inductive StartOutcome
  | rejected
  | resolved (started opened : Bool)
  deriving DecidableEq, Repr

/-- Where a `start()` is. -/
inductive StartPhase
  | awaitingStop (other : ℕ)
  | joined (other : ℕ)
  | doStart (attempt : ℕ) (rest : List StartStep)
  | delay (attempt : ℕ)
  /-- Its `#startingPromise` has settled, and its `finally` has not run. -/
  | settled (outcome : StartOutcome)
  | done (outcome : StartOutcome)
  deriving DecidableEq, Repr

/-- Where a `stop()` is. -/
inductive StopPhase
  | awaitingStart (other : ℕ)
  | joined (other : ℕ)
  | doStop (rest : List StopStep)
  | closeDb
  /-- Its `#stoppingPromise` has settled, and its `finally` has not run. -/
  | settled (resolved : Bool)
  | done (resolved : Bool)
  deriving DecidableEq, Repr

/-- A call of an instance. -/
inductive Call
  | unmade
  | start (attempts : ℕ) (phase : StartPhase)
  | stop (close graceful : Bool) (phase : StopPhase)
  deriving DecidableEq, Repr

namespace Call

/-- `#startingPromise` is the call's. -/
def startInFlight : Call → Bool
  | start _ (.doStart _ _) | start _ (.delay _) | start _ (.settled _) => true
  | _ => false

/-- `#stoppingPromise` is the call's. -/
def stopInFlight : Call → Bool
  | stop _ _ (.doStop _) | stop _ _ .closeDb | stop _ _ (.settled _) => true
  | _ => false

/-- The call has resolved or rejected. -/
def finished : Call → Bool
  | start _ (.done _) | stop _ _ (.done _) => true
  | _ => false

end Call

/-- An instance, with the calls made on it and the subsystems that are started and not stopped. -/
structure PgBossInstance where
  stopped : Bool := true
  started : Bool := false
  opened : Bool := false
  startingPromise : Option ℕ := none
  stoppingPromise : Option ℕ := none
  /-- `#startRetry`, by its `cancelled`. -/
  startRetry : Option Bool := none
  calls : ℕ → Call := fun _ => .unmade
  running : Subsystem → Bool := fun _ => false

namespace PgBossInstance

variable (config : InstanceConfig)

/-- A call goes on. -/
def setCall (w : PgBossInstance) (c : ℕ) (call : Call) : PgBossInstance :=
  { w with calls := Function.update w.calls c call }

/-- `start()`, past its wait for a stop. -/
def startProceeds (w : PgBossInstance) (c attempts : ℕ) : PgBossInstance :=
  match w.startingPromise with
  | some other => w.setCall c (.start attempts (.joined other))
  | none =>
    if w.started then w.setCall c (.start attempts (.done (.resolved w.started w.opened)))
    else { w with stopped := false, startingPromise := some c, startRetry := some false }.setCall c
      (.start attempts (.doStart 1 (startSteps config)))

/-- `start()`. -/
def startCalled (w : PgBossInstance) (c attempts : ℕ) : PgBossInstance :=
  if attempts < 1 then w.setCall c (.start attempts (.done .rejected))
  else
    match w.stoppingPromise with
    | some other => w.setCall c (.start attempts (.awaitingStop other))
    | none => w.startProceeds config c attempts

/-- What a step of `#doStart` does. -/
def applyStart (w : PgBossInstance) : StartStep → PgBossInstance
  | .openDb => { w with opened := w.opened || config.ownPool }
  | .start s => { w with running := Function.update w.running s true }
  | _ => w

/-- `#startAttempts` returns or throws. -/
def settleStart (w : PgBossInstance) (c attempts : ℕ) (outcome : StartOutcome) : PgBossInstance :=
  { w with startRetry := none }.setCall c (.start attempts (.settled outcome))

/-- A step of `#doStart` has been waited for. -/
def startAdvanced (w : PgBossInstance) (c attempts attempt : ℕ) (step : StartStep) (rest : List StartStep) :
    PgBossInstance :=
  let w := w.applyStart config step
  match rest with
  | [] =>
    let w := { w with started := true }
    w.settleStart c attempts (.resolved w.started w.opened)
  | _ :: _ => w.setCall c (.start attempts (.doStart attempt rest))

/-- A step of `#doStart` threw, with what it starts started or not. -/
def startFailed (w : PgBossInstance) (c attempts attempt : ℕ) (step : StartStep) (assertion starts : Bool) :
    PgBossInstance :=
  let w := if starts then w.applyStart config step else w
  if decide (attempts ≤ attempt) || decide (w.startRetry = some true) || assertion then w.settleStart c attempts .rejected
  else w.setCall c (.start attempts (.delay attempt))

/-- The wait between two attempts is over. -/
def delayEnded (w : PgBossInstance) (c attempts attempt : ℕ) : PgBossInstance :=
  if w.startRetry = some true then w.settleStart c attempts .rejected
  else w.setCall c (.start attempts (.doStart (attempt + 1) (startSteps config)))

/-- `start()`, in its `finally`. -/
def startFinally (w : PgBossInstance) (c attempts : ℕ) (outcome : StartOutcome) : PgBossInstance :=
  { w with startingPromise := none }.setCall c (.start attempts (.done outcome))

/-- `stop()`, past its wait for a start. -/
def stopProceeds (w : PgBossInstance) (c : ℕ) (close graceful : Bool) : PgBossInstance :=
  match w.stoppingPromise with
  | some other => w.setCall c (.stop close graceful (.joined other))
  | none =>
    if w.stopped && close && config.ownPool && w.opened then
      { w with stoppingPromise := some c, opened := false }.setCall c (.stop close graceful .closeDb)
    else if w.stopped then w.setCall c (.stop close graceful (.done true))
    else { w with stoppingPromise := some c }.setCall c
      (.stop close graceful (.doStop (stopSteps config close graceful)))

/-- `stop()`. -/
def stopCalled (w : PgBossInstance) (c : ℕ) (close graceful : Bool) : PgBossInstance :=
  let w := { w with startRetry := w.startRetry.map fun _ => true }
  match w.startingPromise with
  | some other => w.setCall c (.stop close graceful (.awaitingStart other))
  | none => w.stopProceeds config c close graceful

/-- What a step of `#doStop` does. -/
def applyStop (w : PgBossInstance) : StopStep → PgBossInstance
  | .stop s => { w with running := Function.update w.running s false }
  | .closePool => { w with opened := false }
  | _ => w

/-- A step of `#doStop` has been waited for. -/
def stopAdvanced (w : PgBossInstance) (c : ℕ) (close graceful : Bool) (step : StopStep) (rest : List StopStep) :
    PgBossInstance :=
  let w := w.applyStop step
  match rest with
  | [] => { w with stopped := true, started := false }.setCall c (.stop close graceful (.settled true))
  | _ :: _ => w.setCall c (.stop close graceful (.doStop rest))

/-- A step of `#doStop` threw, with what it stopped stopped or not. -/
def stopFailed (w : PgBossInstance) (c : ℕ) (close graceful : Bool) (step : StopStep) (stops : Bool) : PgBossInstance :=
  (if stops then w.applyStop step else w).setCall c (.stop close graceful (.settled false))

/-- `stop()`, in its `finally`. -/
def stopFinally (w : PgBossInstance) (c : ℕ) (close graceful resolved : Bool) : PgBossInstance :=
  { w with stoppingPromise := none }.setCall c (.stop close graceful (.done resolved))

/-- One stretch of one call, by what it waited for. `may` says when a call that waited may go on. -/
inductive Step (may : PgBossInstance → Call → Prop) (w : PgBossInstance) : PgBossInstance → Prop
  | startCalled (c attempts : ℕ) (hcall : w.calls c = .unmade) : Step may w (w.startCalled config c attempts)
  | startResumed (c attempts other : ℕ) (hcall : w.calls c = .start attempts (.awaitingStop other))
      (hover : (w.calls other).finished = true) (hmay : may w (w.calls c)) : Step may w (w.startProceeds config c attempts)
  | startJoined (c attempts other attempts' : ℕ) (outcome : StartOutcome)
      (hcall : w.calls c = .start attempts (.joined other)) (hother : w.calls other = .start attempts' (.done outcome)) :
      Step may w (w.setCall c (.start attempts (.done outcome)))
  | startAdvanced (c attempts attempt : ℕ) (step : StartStep) (rest : List StartStep)
      (hcall : w.calls c = .start attempts (.doStart attempt (step :: rest))) :
      Step may w (w.startAdvanced config c attempts attempt step rest)
  | startFailed (c attempts attempt : ℕ) (step : StartStep) (rest : List StartStep) (assertion starts : Bool)
      (hcall : w.calls c = .start attempts (.doStart attempt (step :: rest)))
      (hstep : step ≠ .warnIfDistributedMisconfigured) :
      Step may w (w.startFailed config c attempts attempt step assertion starts)
  | delayEnded (c attempts attempt : ℕ) (hcall : w.calls c = .start attempts (.delay attempt)) :
      Step may w (w.delayEnded config c attempts attempt)
  | startFinally (c attempts : ℕ) (outcome : StartOutcome) (hcall : w.calls c = .start attempts (.settled outcome)) :
      Step may w (w.startFinally c attempts outcome)
  | stopCalled (c : ℕ) (close graceful : Bool) (hcall : w.calls c = .unmade) :
      Step may w (w.stopCalled config c close graceful)
  | stopResumed (c : ℕ) (close graceful : Bool) (other : ℕ)
      (hcall : w.calls c = .stop close graceful (.awaitingStart other)) (hover : (w.calls other).finished = true)
      (hmay : may w (w.calls c)) : Step may w (w.stopProceeds config c close graceful)
  | stopJoined (c : ℕ) (close graceful : Bool) (other : ℕ) (close' graceful' resolved : Bool)
      (hcall : w.calls c = .stop close graceful (.joined other))
      (hother : w.calls other = .stop close' graceful' (.done resolved)) :
      Step may w (w.setCall c (.stop close graceful (.done resolved)))
  | stopAdvanced (c : ℕ) (close graceful : Bool) (step : StopStep) (rest : List StopStep)
      (hcall : w.calls c = .stop close graceful (.doStop (step :: rest))) :
      Step may w (w.stopAdvanced c close graceful step rest)
  | stopFailed (c : ℕ) (close graceful : Bool) (step : StopStep) (rest : List StopStep) (stops : Bool)
      (hcall : w.calls c = .stop close graceful (.doStop (step :: rest)))
      (hstep : step ≠ .closePool ∧ step ≠ .poolDrained) : Step may w (w.stopFailed c close graceful step stops)
  | dbClosed (c : ℕ) (close graceful : Bool) (hcall : w.calls c = .stop close graceful .closeDb) :
      Step may w (w.setCall c (.stop close graceful (.settled true)))
  | stopFinally (c : ℕ) (close graceful resolved : Bool) (hcall : w.calls c = .stop close graceful (.settled resolved)) :
      Step may w (w.stopFinally c close graceful resolved)

/-- Any number of stretches. -/
abbrev Run (may : PgBossInstance → Call → Prop) : PgBossInstance → PgBossInstance → Prop :=
  Relation.ReflTransGen (Step config may)

/-- A `#doStart` attempt is in progress. -/
def DoingStart (w : PgBossInstance) (c : ℕ) : Prop := ∃ attempts attempt rest, w.calls c = .start attempts (.doStart attempt rest)

/-- A `#doStop` or a `#closeDb` is in progress. -/
def DoingStop (w : PgBossInstance) (c : ℕ) : Prop :=
  ∃ close graceful, w.calls c = .stop close graceful .closeDb ∨ ∃ rest, w.calls c = .stop close graceful (.doStop rest)

end PgBossInstance

end PgBoss
