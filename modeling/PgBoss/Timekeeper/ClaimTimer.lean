import PgBoss.Plans.Claim

/-!
# The claim timer and the attempts it drives

`ClaimTimer` schedules the next attempt from the claim rather than from a grid. `onCron` anchors it
at its own stamp when it won, and at the stamp it lost to otherwise. The timers of a deployment run
on one clock and fire on time; instances start and stop whenever they like.
-/

namespace PgBoss

/-- `ClaimTimer`. `due` is when the armed handle fires. -/
structure ClaimTimer where
  ms : ℚ
  due : Option ℚ := none
  stopped : Bool := true
  anchored : Bool := false
  deriving DecidableEq

namespace ClaimTimer

/-- `#disarm`. -/
def disarm (t : ClaimTimer) : ClaimTimer := { t with due := none }

/-- `#arm`. -/
def arm (now ms : ℚ) (t : ClaimTimer) : ClaimTimer :=
  if t.stopped then t.disarm else { t.disarm with due := some (now + ms) }

/-- `start()`. -/
def start (now : ℚ) (t : ClaimTimer) : ClaimTimer :=
  if !t.stopped then t else arm now t.ms { t with stopped := false }

/-- `stop()`. -/
def stop (t : ClaimTimer) : ClaimTimer := { t with stopped := true }.disarm

/-- `anchor()`. Without a wait of its own it waits the timer's interval. -/
def anchor (now : ℚ) (ms : Option ℚ) (t : ClaimTimer) : ClaimTimer :=
  if t.stopped then t else arm now (ms.getD t.ms) { t with anchored := true }

/-- `#run`, up to the callback. -/
def fired (t : ClaimTimer) : ClaimTimer := { t with due := none, anchored := false }

/-- `#run`, after the callback. -/
def settled (now : ℚ) (t : ClaimTimer) : ClaimTimer := if !t.anchored then t.arm now t.ms else t

end ClaimTimer

/-- The fields of a `Timekeeper` its attempts read. `immediates` counts the calls `start()` handed to
`setImmediate` that have not run, and `attempted` says whether a claim was tried since it. -/
structure Timekeeper where
  stopped : Bool := true
  cronMonitorTimer : Option ClaimTimer := none
  immediates : ℕ := 0
  attempted : Bool := false
  deriving DecidableEq

namespace Timekeeper

/-- The beat a refused instance waits past the due moment. -/
def beat (interval : ℚ) : ℚ := min 1000 (interval * 1000 / 4)

/-- `claimRetryDelay`. -/
def claimRetryDelay (interval : ℚ) (elapsed : Option ℚ) : ℚ :=
  let remaining := match elapsed with
    | none => interval * 1000
    | some age => if 0 < age then max 0 (interval * 1000 - age * 1000) else interval * 1000
  remaining + beat interval

/-- `start()`. -/
def start (interval now : ℚ) (k : Timekeeper) : Timekeeper :=
  if !k.stopped then k
  else
    { stopped := false
      cronMonitorTimer := some (ClaimTimer.start now { ms := interval * 1000 })
      immediates := k.immediates + 1
      attempted := false }

/-- `stop()`. -/
def stop (k : Timekeeper) : Timekeeper :=
  if k.stopped then k else { k with stopped := true, cronMonitorTimer := none }

/-- `onCron()`, up to the pass a won claim runs: `cron_on` afterwards, the instance, and whether it won. -/
def onCron (interval now : ℚ) (cronOn : Option ℚ) (k : Timekeeper) : Option ℚ × Timekeeper × Bool :=
  if k.stopped then (cronOn, k, false)
  else
    let claim := trySetCronTime interval now cronOn
    let wait := if claim.2.claimed then none else some (claimRetryDelay interval claim.2.elapsed)
    (claim.1, { k with cronMonitorTimer := k.cronMonitorTimer.map (ClaimTimer.anchor now wait), attempted := true },
      claim.2.claimed)

/-- The callback of the timer, as `#run` runs it. -/
def onTimer (interval now : ℚ) (cronOn : Option ℚ) (t : ClaimTimer) (k : Timekeeper) : Option ℚ × Timekeeper × Bool :=
  let out := onCron interval now cronOn { k with cronMonitorTimer := some t.fired }
  (out.1, { out.2.1 with cronMonitorTimer := out.2.1.cronMonitorTimer.map (ClaimTimer.settled now) }, out.2.2)

end Timekeeper

end PgBoss
