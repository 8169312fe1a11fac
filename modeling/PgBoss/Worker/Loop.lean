import Mathlib

/-!
# The loop of a worker

`Worker.run` fetches, hands over what it fetched, and waits out a poll delay, unless it was notified since it began to
fetch. What runs undisturbed is one step: a call from outside, the timer of the delay, or what the loop goes on to once
what it awaits has settled, up to its next await. What the loop did is kept in a log, the latest first.
-/

namespace PgBoss

/-- `WORKER_STATES`. -/
inductive WorkerState
  | created | active | stopping | stopped
  deriving DecidableEq, Repr

/-- Where the loop is: not started, at `fetch()`, at `onFetch()`, at the delay, or the run promise resolved or rejected. -/
inductive LoopPhase
  | created | fetching | handling | delaying | resolved | rejected
  deriving DecidableEq, Repr

/-- What a loop did, and what it was told. -/
inductive LoopEntry
  | fetched
  | delayed
  | waited
  | notified
  | told
  deriving DecidableEq, Repr

/-- What `clockDelay` answers with: whether the clock holds its timer, whether it was aborted, and whether it resolved. -/
structure LoopDelay where
  timer : Bool := true
  aborted : Bool := false
  settled : Bool := false
  deriving DecidableEq, Repr

/-- `abort()`. The listener of the signal is there as long as the timer is. -/
def LoopDelay.abort (d : LoopDelay) : LoopDelay :=
  if d.aborted then d
  else if d.timer then { timer := false, aborted := true, settled := true }
  else { d with aborted := true }

/-- The callback of the timer. -/
def LoopDelay.fire (d : LoopDelay) : LoopDelay := { d with timer := false, settled := true }

/-- The fields of a worker that its loop reads and writes, and the count of the round. -/
structure WorkerLoop where
  state : WorkerState := .created
  stopping : Bool := false
  stopped : Bool := false
  beenNotified : Bool := false
  loopDelayPromise : Option LoopDelay := none
  fetchedCount : ℕ := 0
  phase : LoopPhase := .created
  log : List LoopEntry := []
  deriving DecidableEq, Repr

namespace WorkerLoop

/-- The head of the loop: the next fetch, or the end of the run. -/
def head (w : WorkerLoop) : WorkerLoop :=
  if !w.stopping then { w with beenNotified := false, fetchedCount := 0, phase := .fetching, log := .fetched :: w.log }
  else { w with stopping := false, stopped := true, state := .stopped, phase := .resolved }

/-- `start()`. -/
def start (w : WorkerLoop) : WorkerLoop := head { w with state := .active }

/-- What follows a fetch and its batch, which took `duration`. -/
def round (resolveInterval : ℕ → ℚ) (duration : ℚ) (w : WorkerLoop) : WorkerLoop :=
  if !w.stopping && !w.beenNotified && decide (100 < resolveInterval w.fetchedCount - duration) then
    { w with loopDelayPromise := some {}, phase := .delaying, log := .delayed :: w.log }
  else head w

/-- `notify()`. -/
def notify (w : WorkerLoop) : WorkerLoop :=
  { w with beenNotified := true, loopDelayPromise := w.loopDelayPromise.map LoopDelay.abort, log := .notified :: w.log }

/-- `stop()`, up to the run promise. -/
def stop (w : WorkerLoop) : WorkerLoop :=
  let w := { w with log := .told :: w.log }
  if w.stopped then w
  else { w with stopping := true, state := .stopping, loopDelayPromise := w.loopDelayPromise.map LoopDelay.abort }

/-- How what the loop awaits settles. Of the jobs fetched it has the number, and none for no answer; where it rejects,
`raised` says that reporting the error throws. -/
inductive Settlement
  | jobs (count : Option ℕ)
  | handled
  | rejected (raised : Bool)
  deriving DecidableEq, Repr

/-- What goes on around a loop. What it awaits settles with what `resolveInterval` answers then, and the duration. -/
inductive Step
  | start
  | notify
  | stop
  | settle (settlement : Settlement) (resolveInterval : ℕ → ℚ) (duration : ℚ)
  | fire
  | resume

/-- The loop goes on. -/
def settle (settlement : Settlement) (resolveInterval : ℕ → ℚ) (duration : ℚ) (w : WorkerLoop) : Option WorkerLoop :=
  match settlement, w.phase with
  | .jobs (some count), .fetching => some { w with fetchedCount := count, phase := .handling }
  | .jobs none, .fetching => some (w.round resolveInterval duration)
  | .handled, .handling => some (w.round resolveInterval duration)
  | .rejected true, .fetching => some { w with phase := .rejected }
  | .rejected true, .handling => some { w with phase := .rejected }
  | .rejected false, .fetching => some (w.round resolveInterval duration)
  | .rejected false, .handling => some (w.round resolveInterval duration)
  | _, _ => none

def step (w : WorkerLoop) : Step → Option WorkerLoop
  | .start => if w.phase = .created then some w.start else none
  | .notify => some w.notify
  | .stop => some w.stop
  | .settle settlement resolveInterval duration => w.settle settlement resolveInterval duration
  | .fire =>
    match w.loopDelayPromise with
    | some d => if d.timer then some { w with loopDelayPromise := some d.fire, log := .waited :: w.log } else none
    | none => none
  | .resume =>
    match w.loopDelayPromise with
    | some d => if d.settled then some (head { w with loopDelayPromise := none }) else none
    | none => none

def steps (w : WorkerLoop) : List Step → Option WorkerLoop
  | [] => some w
  | s :: rest => (w.step s).bind fun w => w.steps rest

end WorkerLoop

end PgBoss
