import Mathlib

/-!
# A subscription's connection

`Db.listen` keeps a client of its own, whose handlers, heartbeat and reconnect timer share a few variables. A step is
what runs undisturbed: a client's event, a timer, or what an awaited statement goes on to when it settles. Where an
event before a settlement and one after it come to the same, the settlement and what follows it are one step. They do
not for the reply to `LISTEN`, since a client that was ended answers nothing more: pg destroys the stream under a
query in flight. Timers fire in any order.
-/

namespace PgBoss

/-- Where a `connect()` call is: at `next.connect()`, at `LISTEN`, behind its reply, at `next.end()`, or behind its throw. -/
inductive ConnectPhase
  | connecting | listening | replied | ending | thrown
  deriving DecidableEq, Repr

/-- What the outside sees of a subscription. -/
inductive ListenOutput
  | opened (client : ℕ)
  | error
  | notified (payload : String)
  | reconnected
  deriving DecidableEq, Repr

/-- The variables of `listen`, the calls to `connect()` by their client, and what the clock, the clients and the
heartbeat queries hold for it. -/
structure Listener where
  closed : Bool := false
  client : Option ℕ := none
  reconnectTimer : Option ℕ := none
  heartbeatTimer : Option ℕ := none
  attempt : ℕ := 0
  established : Bool := false
  /-- `listen()` returned its handle. -/
  returned : Bool := false
  /-- The clients made so far. -/
  clients : ℕ := 0
  phase : ℕ → Option ConnectPhase := fun _ => none
  /-- The clients with handlers on them. -/
  attached : ℕ → Bool := fun _ => false
  /-- The clients `end()` was called on. -/
  ended : ℕ → Bool := fun _ => false
  /-- The timers set so far. -/
  timers : ℕ := 0
  /-- The pending reconnect timers, with their backoff. -/
  reconnects : List (ℕ × ℕ) := []
  /-- The pending heartbeat timers, with their client. -/
  heartbeats : List (ℕ × ℕ) := []
  /-- The clients with a heartbeat query in flight. -/
  beats : List ℕ := []

namespace Listener

/-- `clearHeartbeat`. -/
def clearHeartbeat (l : Listener) : Listener :=
  match l.heartbeatTimer with
  | none => l
  | some id => { l with heartbeats := l.heartbeats.filter fun timer => timer.1 ≠ id, heartbeatTimer := none }

/-- `scheduleReconnect`. -/
def scheduleReconnect (l : Listener) : Listener :=
  if l.closed || l.reconnectTimer.isSome then l
  else
    { l with
      attempt := l.attempt + 1
      reconnectTimer := some l.timers
      reconnects := (l.timers, min 30000 (1000 * 2 ^ min l.attempt 5)) :: l.reconnects
      timers := l.timers + 1 }

/-- `client.removeAllListeners()` and `client.end()`. -/
def dropClient (x : ℕ) (l : Listener) : Listener :=
  { l with attached := Function.update l.attached x false, ended := Function.update l.ended x true }

/-- `disconnect`, up to the error it emits. -/
def forget (target : ℕ) (l : Listener) : Listener := dropClient target { l.clearHeartbeat with client := none }

/-- `disconnect`. -/
def disconnect (target : ℕ) (l : Listener) : Listener × List ListenOutput :=
  if l.closed || l.client ≠ some target then (l, [])
  else (if l.established then (forget target l).scheduleReconnect else forget target l, [.error])

/-- `scheduleHeartbeat`. -/
def scheduleHeartbeat (target : ℕ) (l : Listener) : Listener :=
  if l.closed || l.client ≠ some target then l
  else
    { l with
      heartbeats := (l.timers, target) :: l.heartbeats
      heartbeatTimer := some l.timers
      timers := l.timers + 1 }

/-- `heartbeat`, up to its query. -/
def heartbeat (target : ℕ) (l : Listener) : Listener :=
  if l.closed || l.client ≠ some target then l else { l with beats := target :: l.beats }

/-- `connect`, up to its first wait. -/
def connect (l : Listener) : Listener × List ListenOutput :=
  if l.closed then (l, [])
  else
    ({ l with
      client := some l.clients
      clients := l.clients + 1
      attached := Function.update l.attached l.clients true
      phase := Function.update l.phase l.clients (some .connecting) }, [.opened l.clients])

/-- A `connect()` call gone on to another phase, or done. -/
def goTo (x : ℕ) (phase : Option ConnectPhase) (l : Listener) : Listener := { l with phase := Function.update l.phase x phase }

/-- What `connect` does behind the reply to `LISTEN`. The first call returns the handle. -/
def establish (x : ℕ) (l : Listener) : Listener × List ListenOutput :=
  (scheduleHeartbeat x { goTo x none l with attempt := 0, established := true, returned := l.returned || decide (x = 0) },
    [.reconnected])

/-- `close`, up to its wait. -/
def close (l : Listener) : Listener :=
  let l := { l with
    closed := true
    reconnects := l.reconnects.filter fun timer => some timer.1 ≠ l.reconnectTimer
    reconnectTimer := none }
  match l.client with
  | none => l.clearHeartbeat
  | some x => dropClient x l.clearHeartbeat

end Listener

/-- What happens next. Of a client it is an 'error' or 'end', or a notification; of a heartbeat whether its channel was
found, in time. -/
inductive ListenEvent
  | connected (x : ℕ)
  | replied (x : ℕ)
  | failed (x : ℕ)
  | goesOn (x : ℕ)
  | endSettled (x : ℕ)
  | caught (x : ℕ)
  | clientLost (x : ℕ)
  | notification (x : ℕ) (payload : Option String)
  | reconnectFires (timer : ℕ × ℕ)
  | heartbeatFires (timer : ℕ × ℕ)
  | beatSettled (x : ℕ) (listening : Bool)
  | close
  | closeSettled
  deriving DecidableEq, Repr

namespace Listener

/-- The step of an event, where it can happen. -/
def step (l : Listener) : ListenEvent → Option (Listener × List ListenOutput)
  | .connected x => if l.phase x = some .connecting ∧ l.ended x = false then some (goTo x (some .listening) l, []) else none
  | .replied x => if l.phase x = some .listening ∧ l.ended x = false then some (goTo x (some .replied) l, []) else none
  | .failed x =>
    if l.phase x = some .connecting ∨ l.phase x = some .listening then some (dropClient x (goTo x (some .ending) l), [])
    else none
  | .goesOn x => if l.phase x = some .replied then some (establish x l) else none
  | .endSettled x =>
    if l.phase x = some .ending then
      some ({ goTo x (some .thrown) l with client := if l.client = some x then none else l.client }, [])
    else none
  | .caught x =>
    -- the first call's rejection is that of `listen()`
    if l.phase x = some .thrown then some (if x = 0 then goTo x none l else scheduleReconnect (goTo x none l), []) else none
  | .clientLost x => if l.attached x then some (disconnect x l) else none
  | .notification x payload => if l.attached x then some (l, payload.toList.map .notified) else none
  | .reconnectFires timer =>
    if timer ∈ l.reconnects then
      some (connect { l with reconnects := l.reconnects.erase timer, reconnectTimer := none })
    else none
  | .heartbeatFires timer =>
    if timer ∈ l.heartbeats then
      some (heartbeat timer.2 { l with heartbeats := l.heartbeats.erase timer, heartbeatTimer := none }, [])
    else none
  | .beatSettled x listening =>
    if x ∈ l.beats then
      let l := { l with beats := l.beats.erase x }
      some (if listening then (scheduleHeartbeat x l, []) else disconnect x l)
    else none
  | .close => if l.returned then some (l.close, []) else none
  | .closeSettled => if l.closed then some ({ l with client := none }, []) else none

/-- `listen()` once it waits for its first `connect()`. -/
def start : Listener := (connect {}).1

/-- A run of events that may happen. -/
inductive Run (may : Listener → ListenEvent → Prop) : Listener → Prop
  | start : Run may start
  | step {l l' : Listener} {e : ListenEvent} {out : List ListenOutput} (h : Run may l) (hmay : may l e)
      (hstep : l.step e = some (l', out)) : Run may l'

/-- The events of a run, one after another, and the state they lead to. -/
def after (events : List ListenEvent) : Option Listener :=
  events.foldlM (fun l e => (l.step e).map Prod.fst) start

end Listener

end PgBoss
