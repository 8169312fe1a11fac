import PgBoss.Schema

/-!
# The instance table

One row for each life of an instance: who it was, when it started, last beat and stopped, and the crash restarts
counted for it.
-/

namespace PgBoss

/-- A row of the instance table. The columns that only report an instance's state are left out. -/
structure InstanceRow where
  id : Uuid
  name : Option String
  host : String
  pid : Int
  heartbeatSeconds : Int
  crashRestarts : Int := 0
  crashRestartsSince : Option Timestamp := none
  startedOn : Timestamp
  heartbeatOn : Timestamp
  stoppedOn : Option Timestamp := none
  deriving DecidableEq, Repr

/-- `INSTANCE_QUIET_BEATS`. -/
def instanceQuietBeats : Int := 3

/-- The row missed its heartbeats. -/
def InstanceRow.quiet (now : Timestamp) (i : InstanceRow) : Bool :=
  decide (i.heartbeatOn < now - seconds (i.heartbeatSeconds * instanceQuietBeats))

/-- `instanceDead`. -/
def InstanceRow.dead (now : Timestamp) (i : InstanceRow) : Bool := i.stoppedOn.isSome || i.quiet now

end PgBoss
