import PgBoss.Plans.Bam
import PgBoss.Plans.BamText

/-!
# Stopping a runner

A runner carries one claimed row from its claim to its outcome while `stop` waits for it, and past the
deadline ends the statement in flight. Both run in one process, so each goes from one wait to the next
undisturbed, and a step here is such a stretch. What the waits bring is free: a checkout or a
statement may fail at any time, a cancel may find nothing or raise, and a dropped connection's
statement may still return. The writes of the release and of the outcome succeed.

Beside the state there is a log of what reached the server. The clock is `Date.now()`, milliseconds
since 1970, and may be set back.
-/

namespace PgBoss

/-- `Ending`. -/
inductive Ending
  | abandon | drop | cancel | wait
  deriving DecidableEq, Repr

/-- `Running`. -/
structure Running where
  stopped : Bool := false
  ended : Bool := false
  ending : Ending := .wait
  /-- `abort.signal.aborted`. -/
  aborted : Bool := false
  deriving DecidableEq, Repr

/-- What the runner is configured with. -/
structure BamHost where
  schema : String
  /-- `this.#db instanceof Db`. -/
  ownPool : Bool
  /-- `backend === 'cockroachdb'`. -/
  cockroach : Bool
  noIndexProgressView : Bool

/-- The row as the claim found it, and the stamp that the claim wrote. -/
structure BamEntry where
  found : BamRow
  stamp : Int

/-- The claim, for its release. -/
def BamEntry.claim (entry : BamEntry) : BamClaim := bamClaimOf entry.stamp entry.found

/-- `reattempt`. -/
def BamEntry.reattempt (entry : BamEntry) : Bool := decide (entry.found.status ≠ .pending)

/-- The statements of a row that run through `#execute`. -/
inductive Purpose
  | heal | command
  deriving DecidableEq, Repr

/-- The statement's text, without its tag. -/
def BamHost.sql (host : BamHost) (entry : BamEntry) : Purpose → String
  | .heal => (bamHealDrop host.schema entry.found.command).getD ""
  | .command => entry.found.command

/-- How `#execute` would have its statement end. -/
def BamHost.ending (host : BamHost) (sql : String) : Ending :=
  if !host.ownPool then if host.cockroach then .wait else .cancel
  else if host.cockroach then .drop
  else if !host.noIndexProgressView && isConcurrentIndexCommand sql then .abandon else .cancel

/-- What the runner waits for. -/
inductive RunnerWait
  | claim | release | probe
  | checkout (p : Purpose)
  | statement (p : Purpose)
  | check | setCompleted
  | setFailed (error : String)
  | done
  deriving DecidableEq, Repr

/-- What `stop` waits for. -/
inductive StopWait
  | notCalled | delay | cancel | resolved
  deriving DecidableEq, Repr

/-- What reached the server and what came back. -/
inductive BamEvent
  | sent (p : Purpose) (stopped : Bool)
  | returned (p : Purpose)
  | dropped (p : Purpose)
  | foundValid | passed
  deriving DecidableEq, Repr

/-- The process, with the rows of `bam`. -/
structure BamProcess where
  rows : List BamRow
  now : ℕ
  runner : RunnerWait := .claim
  running : Running := {}
  stop : StopWait := .notCalled
  expired : Bool := false
  endedAt : ℕ := 0
  log : List BamEvent := []
  deriving DecidableEq

/-- `CANCEL_RETRY_MS`. -/
def cancelRetryMs : ℕ := 1000

namespace BamProcess

/-- The `catch` of `#processNextCommand`. -/
def caught (w : BamProcess) (error : String) : BamProcess :=
  { w with runner := if w.running.ended && decide (w.running.ending = .abandon) then .done else .setFailed error }

/-- `#notStarted`. -/
def notStarted (w : BamProcess) : BamProcess :=
  { w with running := { w.running with ending := .wait, ended := true } }.caught "stop() ended the command before it ran"

/-- The statement goes to the server. -/
def send (w : BamProcess) (p : Purpose) : BamProcess :=
  { w with runner := .statement p, log := .sent p w.running.stopped :: w.log }

/-- `Db.executeSql` from the checkout on: an abort by then keeps the statement from starting. -/
def checkedOut (w : BamProcess) (p : Purpose) : BamProcess := if w.running.aborted then w.notStarted else w.send p

variable (host : BamHost) (entry : BamEntry)

/-- `#execute`, up to its first wait. A db that is no pool of ours is handed the statement at once. -/
def execute (w : BamProcess) (p : Purpose) : BamProcess :=
  if w.running.stopped then w.notStarted
  else
    let w := { w with running := { w.running with ending := host.ending (host.sql entry p) } }
    if !host.ownPool then w.send p
    else if w.running.aborted then w.notStarted
    else { w with runner := .checkout p }

/-- The claim returned: the row is handed back after a stop. -/
def claimed (w : BamProcess) : BamProcess :=
  if w.stop ≠ .notCalled then { w with runner := .release }
  else
    let w := { w with running := {} }
    if entry.reattempt && (bamHealProbe entry.found.command).isSome then { w with runner := .probe }
    else w.execute host entry .command

/-- The probe of a reattempt returned: no row, or whether the index is invalid. -/
def probed (w : BamProcess) : Option Bool → BamProcess
  | some true => if host.noIndexProgressView then w.execute host entry .command else w.execute host entry .heal
  | some false => { w with runner := .setCompleted, log := .foundValid :: w.log }
  | none => w.execute host entry .command

/-- A statement returned. -/
def returned (w : BamProcess) (p : Purpose) : BamProcess :=
  let w := { w with running := { w.running with ending := .wait }, log := .returned p :: w.log }
  match p with
  | .heal => w.execute host entry .command
  | .command =>
    if (bamHealProbe entry.found.command).isSome then { w with runner := .check }
    else { w with runner := .setCompleted, log := .passed :: w.log }

/-- The check after the command returned. -/
def checked (w : BamProcess) (invalid : Option Bool) (error : String) : BamProcess :=
  if invalid = none ∨ (invalid = some true ∧ host.noIndexProgressView = false) then w.caught error
  else { w with runner := .setCompleted, log := .passed :: w.log }

/-- `abort.abort()`, which drops the connection of a statement that was given the signal. -/
def abort (w : BamProcess) : BamProcess :=
  { w with
    running := { w.running with aborted := true }
    log :=
      match w.runner with
      | .statement p =>
        if !w.running.aborted && host.ownPool && decide (w.running.ending ≠ .cancel) then .dropped p :: w.log else w.log
      | _ => w.log }

/-- `#end`, up to its first wait. -/
def endRunning (w : BamProcess) : BamProcess :=
  if w.running.ending = .abandon ∨ w.running.ending = .drop then
    let w := w.abort host
    { w with running := { w.running with ended := true }, stop := .delay }
  else { w.abort host with stop := .cancel }

/-- `this.#running` is set. -/
def hasRunning (w : BamProcess) : Bool := decide (w.runner ≠ .claim ∧ w.runner ≠ .release ∧ w.runner ≠ .done)

/-- `stop` woke from its delay. -/
def woke (w : BamProcess) : BamProcess :=
  if w.runner = .done then { w with stop := .resolved }
  else if w.expired && w.hasRunning then
    let w := { w with running := { w.running with stopped := true } }
    if !w.running.ended && decide (w.running.ending ≠ .wait) && decide (w.endedAt + cancelRetryMs ≤ w.now) then
      { w with endedAt := w.now }.endRunning host
    else w
  else w

/-- One stretch of the runner or of `stop`, by what it waited for. `mayFail` says when a checkout may fail. -/
inductive Step (mayFail : BamProcess → Prop) (w : BamProcess) : BamProcess → Prop
  | tick (now : ℕ) (hnow : cancelRetryMs ≤ now) : Step mayFail w { w with now := now }
  | claimed (hrunner : w.runner = .claim) : Step mayFail w (w.claimed host entry)
  | released (hrunner : w.runner = .release) :
      Step mayFail w { w with rows := releaseBamCommand entry.claim w.rows, runner := .done }
  | probed (invalid : Option Bool) (hrunner : w.runner = .probe) : Step mayFail w (w.probed host entry invalid)
  | probeFailed (error : String) (hrunner : w.runner = .probe ∨ w.runner = .check) : Step mayFail w (w.caught error)
  | checkedOut (p : Purpose) (hrunner : w.runner = .checkout p) : Step mayFail w (w.checkedOut p)
  | checkoutFailed (p : Purpose) (error : String) (hrunner : w.runner = .checkout p) (hmay : mayFail w) :
      Step mayFail w (w.caught error)
  | returned (p : Purpose) (hrunner : w.runner = .statement p) : Step mayFail w (w.returned host entry p)
  | statementFailed (p : Purpose) (error : String) (hrunner : w.runner = .statement p) : Step mayFail w (w.caught error)
  | checked (invalid : Option Bool) (error : String) (hrunner : w.runner = .check) :
      Step mayFail w (w.checked host invalid error)
  | completed (at' : ℤ) (hrunner : w.runner = .setCompleted) :
      Step mayFail w { w with rows := setBamCompleted at' entry.found.id w.rows, runner := .done }
  | failed (at' : ℤ) (error : String) (hrunner : w.runner = .setFailed error) :
      Step mayFail w { w with rows := setBamFailed at' entry.found.id error w.rows, runner := .done }
  | stopCalled (hstop : w.stop = .notCalled) : Step mayFail w { w with stop := .delay }
  | expired (hstop : w.stop = .delay ∨ w.stop = .cancel) : Step mayFail w { w with expired := true }
  | woke (hstop : w.stop = .delay) : Step mayFail w (w.woke host)
  | cancelReturned (cancelled : Bool) (hstop : w.stop = .cancel) :
      Step mayFail w { w with running := { w.running with ended := w.running.ended || cancelled }, stop := .delay }
  | cancelRaised (hstop : w.stop = .cancel) :
      Step mayFail w { w with running := { w.running with ending := .wait }, stop := .delay }

/-- Any number of steps. -/
abbrev Run (mayFail : BamProcess → Prop) : BamProcess → BamProcess → Prop :=
  Relation.ReflTransGen (Step host entry mayFail)

/-- The claim has just updated the row, and neither the runner nor `stop` has gone on. -/
structure Start (w : BamProcess) : Prop where
  row : ∀ x ∈ w.rows, x.id = entry.found.id → x = claimBamRow entry.stamp entry.found
  now : cancelRetryMs ≤ w.now
  fresh : w = { rows := w.rows, now := w.now }

end BamProcess

end PgBoss
