import Mathlib

/-!
# The test clock

Time moves only through `setTime` and `tick`, which both wait for pg-boss and for the database; in between, and inside
a timer's callback, anything may set and clear timers. A step is what runs undisturbed: a call from outside, or what a
wait goes on to.
-/

namespace PgBoss

/-- `Timer`. The handle stands for the object with its callback, and is the `seq` it was made with. -/
structure ClockTimer where
  handle : ℕ
  due : ℚ
  seq : ℕ
  interval : Option ℚ
  deriving DecidableEq, Repr

/-- Where a `setTime` or a `tick` waits: to settle before the jump, at its `#push()`; to settle first, at the `#push()`
of the due time of a timer taken from the list, inside its callback, at the `#push()` of the target, or to settle after. -/
inductive ClockWait
  | jump (next : ℚ)
  | pushJump
  | start (ms : ℚ)
  | push (target : ℚ) (timer : ClockTimer)
  | callback (target : ℚ)
  | arrive (target : ℚ)
  | settle (target : ℚ)
  deriving DecidableEq, Repr

/-- The fields of `TestClock`; `#busy` has what the call in progress waits for. -/
structure TestClock where
  now : ℚ
  timers : List ClockTimer := []
  seq : ℕ := 0
  busy : Option ClockWait := none
  deriving DecidableEq, Repr

/-- What comes next: a call, what is waited for, or its failure, where a callback throws or a statement fails. -/
inductive ClockEvent
  | setTimeout (ms : ℚ)
  | setInterval (ms : ℚ)
  | clear (handle : ℕ)
  | setTime (t : ℚ)
  | tick (ms : ℚ)
  | goesOn
  | throws
  deriving DecidableEq, Repr

/-- What a run did to the timers. A firing has the timer's due time and that of the clock. -/
inductive ClockEntry
  | armed (timer : ClockTimer)
  | cleared (handle : ℕ)
  | fired (handle : ℕ) (due now : ℚ)
  deriving DecidableEq, Repr

/-- `laterDue || sameDueScheduledLater`. -/
def ClockTimer.isAfter (timer previous : ClockTimer) : Bool :=
  decide (timer.due < previous.due) || decide (previous.due = timer.due ∧ timer.seq < previous.seq)

/-- `#insert`, from the end of the list. -/
def insertTimer (timer : ClockTimer) (timers : List ClockTimer) : List ClockTimer :=
  timers.rdropWhile timer.isAfter ++ timer :: timers.rtakeWhile timer.isAfter

/-- The loop of `setTime`: the overdue timers are a prefix. -/
def moveOverdue (next : ℚ) : List ClockTimer → List ClockTimer
  | [] => []
  | timer :: timers => if next ≤ timer.due then timer :: timers else { timer with due := next } :: moveOverdue next timers

namespace TestClock

/-- `#schedule`. -/
def schedule (ms : ℚ) (interval : Option ℚ) (c : TestClock) : TestClock × List ClockEntry :=
  let timer : ClockTimer := { handle := c.seq, due := c.now + max ms 0, seq := c.seq, interval }
  ({ c with timers := insertTimer timer c.timers, seq := c.seq + 1 }, [.armed timer])

/-- `clearTimeout`. -/
def clearTimeout (handle : ℕ) (c : TestClock) : TestClock × List ClockEntry :=
  ({ c with timers := c.timers.eraseP fun timer => timer.handle = handle }, [.cleared handle])

/-- A timer taken from the list: an interval is inserted again before its callback is called. -/
def fire (target : ℚ) (timer : ClockTimer) (c : TestClock) : TestClock × List ClockEntry :=
  let c := { c with busy := some (.callback target) }
  let entry := .fired timer.handle timer.due c.now
  match timer.interval with
  | none => (c, [entry])
  | some period =>
    ({ c with
      timers := insertTimer { timer with due := timer.due + period, seq := c.seq } c.timers
      seq := c.seq + 1 }, [entry])

/-- The end of the loop of `tick`, where no timer is due. -/
def arrive (target : ℚ) (c : TestClock) : TestClock :=
  if c.now < target then { c with now := target, busy := some (.arrive target) } else { c with busy := none }

/-- The loop of `tick`, up to its next wait. -/
def loop (target : ℚ) (c : TestClock) : TestClock × List ClockEntry :=
  match c.timers with
  | [] => (arrive target c, [])
  | timer :: timers =>
    if timer.due ≤ target then
      if c.now < timer.due then ({ c with timers, now := timer.due, busy := some (.push target timer) }, [])
      else fire target timer { c with timers }
    else (arrive target c, [])

/-- What a wait goes on to. -/
def goOn (c : TestClock) : ClockWait → TestClock × List ClockEntry
  | .jump next => ({ c with timers := moveOverdue next c.timers, now := next, busy := some .pushJump }, [])
  | .pushJump => ({ c with busy := none }, [])
  | .start ms => loop (c.now + ms) c
  | .push target timer => fire target timer c
  | .callback target => ({ c with busy := some (.settle target) }, [])
  | .arrive target => ({ c with busy := some (.settle target) }, [])
  | .settle target => loop target c

/-- A step of the clock. A handle is one that was given out; a second `setTime` or `tick` throws. -/
def step (c : TestClock) : ClockEvent → Option (TestClock × List ClockEntry)
  | .setTimeout ms => some (c.schedule ms none)
  | .setInterval ms => some (c.schedule ms (some (max ms 1)))
  | .clear handle => if handle < c.seq then some (c.clearTimeout handle) else none
  | .setTime t => some (if c.busy.isSome then c else { c with busy := some (.jump t) }, [])
  | .tick ms => some (if c.busy.isSome then c else { c with busy := some (.start ms) }, [])
  | .goesOn => c.busy.map c.goOn
  | .throws => if c.busy.isSome then some ({ c with busy := none }, []) else none

/-- A run of events that may happen, with the state they lead to and what they did. -/
inductive Run (may : TestClock → ClockEvent → Prop) (c : TestClock) : List ClockEvent → TestClock → List ClockEntry → Prop
  | nil : Run may c [] c []
  | snoc {events : List ClockEvent} {c' c'' : TestClock} {log log' : List ClockEntry} {e : ClockEvent}
      (h : Run may c events c' log) (hmay : may c' e) (hstep : c'.step e = some (c'', log')) :
      Run may c (events ++ [e]) c'' (log ++ log')

/-- The events one after another. -/
def after : List ClockEvent → TestClock → Option (TestClock × List ClockEntry)
  | [], c => some (c, [])
  | e :: events, c => do
    let (c, log) ← c.step e
    let (c, log') ← after events c
    some (c, log ++ log')

end TestClock

end PgBoss
