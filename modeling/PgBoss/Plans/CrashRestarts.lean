import PgBoss.Plans.Instance
import PgBoss.Relational.RowNumber

/-!
# Statements of the instance table

A life of an instance registers its row, counts the crashed lives before it, prunes dead rows, beats, and sets when it
stopped. The count reads the rows left on its name and host since the last that stopped, and goes by the first of them
for those that were pruned.
-/

namespace PgBoss

open Relational

/-- `registerInstance`: a row of the id is replaced, every column of it. -/
def registerInstance (now : Timestamp) (id : Uuid) (name : Option String) (host : String) (pid heartbeatSeconds : Int)
    (table : List InstanceRow) : List InstanceRow :=
  { id, name, host, pid, heartbeatSeconds, startedOn := now, heartbeatOn := now } ::
    table.filter fun i => !decide (i.id = id)

/-- `heartbeatInstance`, of a life that registered its values at `startedOn`. -/
def heartbeatInstance (now : Timestamp) (id : Uuid) (name : Option String) (host : String) (pid heartbeatSeconds : Int)
    (startedOn : Timestamp) (table : List InstanceRow) : List InstanceRow :=
  if table.any fun i => i.id = id then table.map fun i => if i.id = id then { i with heartbeatOn := now } else i
  else { id, name, host, pid, heartbeatSeconds, startedOn, heartbeatOn := now } :: table

/-- `stopInstance`. -/
def stopInstance (now : Timestamp) (id : Uuid) (table : List InstanceRow) : List InstanceRow :=
  table.map fun i => if i.id = id then { i with stoppedOn := some now } else i

/-- The order of `started_on, id`. -/
def InstanceRow.startedBefore (a b : InstanceRow) : Bool := decide (toLex (a.startedOn, a.id) < toLex (b.startedOn, b.id))

/-- The rows `pruneDeadInstances` deletes: the dead ones that are `selected` and ranked past `keep`, the newest start
first, but for those `locked`. -/
def instancePruned (now : Timestamp) (selected : InstanceRow → Bool) (keep : ℕ) (locked : InstanceRow → Bool) (table : List InstanceRow)
    (i : InstanceRow) : Bool :=
  let ranked := table.filter fun i => selected i && i.dead now
  selected i && i.dead now && decide (keep < rowsBefore (fun a b => b.startedBefore a) ranked i + 1) && !locked i

/-- `pruneDeadInstances`. -/
def pruneDeadInstances (now : Timestamp) (selected : InstanceRow → Bool) (keep : ℕ) (locked : InstanceRow → Bool)
    (table : List InstanceRow) : List InstanceRow :=
  table.filter fun i => !instancePruned now selected keep locked table i

/-- What `pruneInstanceLives` ranks: the other rows of the name, or of the host where there is none. -/
def pruneInstanceWhere (id : Uuid) (name : Option String) (host : String) (i : InstanceRow) : Bool :=
  decide (i.id ≠ id) && match name with
    | none => decide (i.name = none) && decide (i.host = host)
    | some name => decide (i.name = some name)

/-- `INSTANCE_DEAD_KEPT_PER_NAME`. -/
def instanceDeadKeptPerName : ℕ := 20

/-- `INSTANCE_DEAD_KEPT`. -/
def instanceDeadKept : ℕ := 1000

/-- `INSTANCE_RETENTION_DAYS`. -/
def instanceRetentionDays : Int := 7

/-- What `deleteOldInstances` deletes. -/
def InstanceRow.old (now : Timestamp) (i : InstanceRow) : Bool :=
  decide (i.heartbeatOn < now - seconds (instanceRetentionDays * 86400))

/-- The parameters of the count: who counts, and when its process started. -/
structure CrashCounter where
  id : Uuid
  name : Option String
  host : String
  pid : Int
  processStart : Timestamp

section Count

variable (now : Timestamp) (p : CrashCounter)

/-- The conditions of `slot`. -/
def CrashCounter.inSlot (me i : InstanceRow) : Bool :=
  decide (i.id ≠ me.id) && decide (i.host = p.host) && decide (i.name = p.name) && decide (i.startedOn < me.startedOn) &&
    decide (i.heartbeatOn ≤ me.startedOn) && !(decide (i.pid = p.pid) && decide (p.processStart ≤ i.startedOn))

/-- `boundary`. -/
def CrashCounter.boundary (slot : List InstanceRow) : Option Timestamp :=
  ((slot.filter fun i => i.stoppedOn.isSome).map InstanceRow.startedOn).max?

/-- `streak`. -/
def CrashCounter.streak (slot : List InstanceRow) : List InstanceRow :=
  slot.filter fun i => !i.stoppedOn.isSome && (CrashCounter.boundary slot).all fun latest => decide (latest < i.startedOn)

/-- `crashDead`. -/
def CrashCounter.dead (i : InstanceRow) : Bool :=
  i.quiet now || decide (i.pid = p.pid) && decide (i.heartbeatOn < p.processStart)

/-- `crashed`. -/
def CrashCounter.crashed (me : InstanceRow) (table : List InstanceRow) : List InstanceRow :=
  (CrashCounter.streak (table.filter (p.inSlot me))).filter (p.dead now)

/-- `head`. -/
def CrashCounter.head (crashed : List InstanceRow) : Option InstanceRow :=
  crashed.find? fun i => rowsBefore InstanceRow.startedBefore crashed i = 0

/-- `COALESCE(crash_restarts_since, heartbeat_on)`. -/
def InstanceRow.crashedSince (i : InstanceRow) : Timestamp := i.crashRestartsSince.getD i.heartbeatOn

/-- `counts` has this row: the one that counts, and each crashed one but the first. -/
def CrashCounter.counts (me : InstanceRow) (crashed : List InstanceRow) (i : InstanceRow) : Bool :=
  decide (i.id = me.id) || decide (i ∈ crashed) && decide (0 < rowsBefore InstanceRow.startedBefore crashed i)

/-- A row, with its count if there is one. -/
def CrashCounter.countRow (me : InstanceRow) (crashed : List InstanceRow) (i : InstanceRow) : InstanceRow :=
  if counts me crashed i then
    match head crashed with
    | some h =>
      { i with
        crashRestarts := h.crashRestarts + if i.id = me.id then crashed.length else rowsBefore InstanceRow.startedBefore crashed i
        crashRestartsSince := some h.crashedSince }
    | none => { i with crashRestarts := 0, crashRestartsSince := none }
  else i

/-- `countCrashRestarts`. -/
def countCrashRestarts (table : List InstanceRow) : List InstanceRow :=
  match table.find? fun i => i.id = p.id with
  | some me => table.map (CrashCounter.countRow me (p.crashed now me table))
  | none => table

/-- `crashRecountAt`: when the last of the rows not yet judged goes quiet. -/
def crashRecountAt (table : List InstanceRow) : Option Timestamp :=
  (table.find? fun i => i.id = p.id).bind fun me =>
    (((CrashCounter.streak (table.filter (p.inSlot me))).filter fun i => !p.dead now i).map fun i =>
      i.heartbeatOn + seconds (i.heartbeatSeconds * instanceQuietBeats)).max?

end Count

end PgBoss
