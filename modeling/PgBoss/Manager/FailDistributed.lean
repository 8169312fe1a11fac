import PgBoss.Plans.Fail

/-!
# The multi-statement failure path

On a backend that refuses a statement with several data-modifying CTEs, the manager selects
the jobs to fail, deletes them and inserts each again in a loop. The loop computes the retry row
in JavaScript, from the client's clock; the dead letter copy is a statement, which reads the
server's. The statements share a transaction where pg-boss owns the pool, and have none of their
own on a database that the application supplied.
-/

namespace PgBoss

open Relational

/-- What a multi-statement failure is given besides: `clock` is the client's `clock.now()`, in
milliseconds. -/
structure ReinsertInput extends FailInput where
  clock : Int

/-- `new Date(t)`: the instant of `t` milliseconds, whose fraction is dropped. -/
def newDate (t : ℚ) : Timestamp := (if 0 ≤ t then ⌊t⌋ else ⌈t⌉) * 1000

/-- The statements of a call one after another: the table each leaves, and the answer. -/
structure Sent (α : Type) where
  tables : List Database
  reply : Reply α

/-- The table once so many statements have gone through. -/
def Sent.after {α : Type} (s : Sent α) (db : Database) (n : ℕ) : Database := ((db :: s.tables)[n]?).getD db

/-- `ensureTransaction`: the statements run between BEGIN and COMMIT where the database is pg-boss's own pool, so that
a raise leaves nothing, and inline where it is another, so that each commits by itself. A statement may be `rejected`,
after so many others have gone through. -/
def Database.ensureTransaction {α : Type} (ownPool : Bool) (rejected : Option ℕ) (db : Database) (s : Sent α) :
    Database × Option α :=
  match rejected, s.reply with
  | none, .ok (db', a) => (db', some a)
  | none, .error _ => (if ownPool then db else s.after db s.tables.length, none)
  | some n, _ => (if ownPool then db else s.after db n, none)

/-- `deleteJobsToFail`. -/
def deleteJobsToFail (name : String) (ids : List Uuid) (db : Database) : Database :=
  { db with jobs := db.jobs.filter fun j => !named name ids j }

/-- `deleteJobsByIds`: by name and id, paired. -/
def deleteJobsByIds (keys : List JobKey) (db : Database) : Database :=
  { db with jobs := db.jobs.filter fun j => !decide (j.jobKey ∈ keys) }

/-- `insertRetryJob`: `ON CONFLICT DO NOTHING`. The flag says whether the row came back. -/
def insertRetryJob (row : Job) (db : Database) : Database × Bool :=
  if refused jobIndexes db.jobs row then (db, false) else ({ db with jobs := db.jobs ++ [row] }, true)

/-- `insertDeadLetterJob`: no row when there is no such queue. `r` is the failed row of `j`. -/
def insertDeadLetterJob (i : FailInput) (deadLetter : String) (j r : Job) (db : Database) :
    Except SqlError Database :=
  match db.queue deadLetter with
  | none => .ok db
  | some q =>
    match insertOrRaise jobIndexes db.jobs [deadLetterRow i j r q] with
    | none => .error .uniqueViolation
    | some jobs => .ok { db with jobs }

/-- The json columns of a row as they are bound again: a JSON null becomes the null of SQL. -/
def rebound (j : Job) : Job :=
  { j with
    data := toJsonText j.data
    sourceOutput := toJsonText j.sourceOutput
    traceContext := toJsonText j.traceContext }

/-- The row the loop inserts for a job that may run again. -/
def reinsertRetryRow (i : ReinsertInput) (j : Job) : Job :=
  { rebound j with
    state := .retry
    startAfter :=
      if !j.retryBackoff then newDate (i.clock + j.retryDelay * 1000)
      else newDate (i.clock + backoffDelay (i.random j) j * 1000)
    completedOn := none
    output := toJsonText (i.output j)
    heartbeatOn := none
    upsertByKey := false }

/-- The row the loop inserts for a job that has failed. -/
def reinsertFailedRow (i : ReinsertInput) (j : Job) : Job :=
  { rebound j with
    state := .failed
    completedOn := some (newDate i.clock)
    output := toJsonText (i.output j)
    heartbeatOn := none
    upsertByKey := false }

/-- `if (!retried)`: the second insert, whose answer is not read, and the dead letter copy. -/
def reinsertAsFailed (i : ReinsertInput) (j : Job) (db : Database) : Except SqlError Database :=
  let second := insertRetryJob (reinsertFailedRow i j) db
  match j.deadLetter with
  | none => .ok second.1
  | some deadLetter =>
    if deadLetter = "" then .ok second.1
    else insertDeadLetterJob i.toFailInput deadLetter j (reinsertFailedRow i j) second.1

/-- One turn of the loop. -/
def reinsertFailedJob (i : ReinsertInput) (j : Job) (db : Database) : Except SqlError Database :=
  let first := if canRetry i.toFailInput j then insertRetryJob (reinsertRetryRow i j) db else (db, false)
  if first.2 then .ok first.1 else reinsertAsFailed i j first.1

/-- `reinsertFailedJobs`: the loop, and the number of jobs it went through. -/
def reinsertFailedJobs (i : ReinsertInput) (count : ℕ) : List Job → Database → Reply ℕ
  | [], db => .ok (db, count)
  | j :: rest, db =>
    match reinsertFailedJob i j db with
    | .error e => .error e
    | .ok db' => reinsertFailedJobs i (count + 1) rest db'

/-- The tables the inserts of `reinsertAsFailed` leave. -/
def asFailedTables (i : ReinsertInput) (j : Job) (db : Database) : List Database :=
  let second := (insertRetryJob (reinsertFailedRow i j) db).1
  second :: match j.deadLetter with
    | none => []
    | some deadLetter =>
      if deadLetter = "" then []
      else match insertDeadLetterJob i.toFailInput deadLetter j (reinsertFailedRow i j) second with
        | .ok db' => [db']
        | .error _ => []

/-- The tables the inserts of one turn leave. -/
def turnTables (i : ReinsertInput) (j : Job) (db : Database) : List Database :=
  if canRetry i.toFailInput j then
    let first := insertRetryJob (reinsertRetryRow i j) db
    first.1 :: if first.2 then [] else asFailedTables i j first.1
  else asFailedTables i j db

/-- The tables the inserts of the loop leave. -/
def reinsertTables (i : ReinsertInput) : List Job → Database → List Database
  | [], _ => []
  | j :: rest, db =>
    turnTables i j db ++ match reinsertFailedJob i j db with
      | .ok db' => reinsertTables i rest db'
      | .error _ => []

/-- `CommandResponse`, with the ids that were settled. -/
structure CommandResponse where
  jobs : List Uuid
  requested : ℕ
  affected : ℕ
  settled : List Uuid
  deriving DecidableEq, Repr

/-- The statements `failDistributed` and the distributed branch of `#failWithOutputs` share:
`selectJobsToFailById`, the delete of what it matched, and the loop. -/
def failSelected (i : ReinsertInput) (name : String) (ids : List Uuid) (select : Job → Bool)
    (db : Database) : Reply CommandResponse :=
  match db.jobs.filter select with
  | [] => .ok (db, ⟨ids, ids.length, 0, []⟩)
  | j :: rest =>
    match reinsertFailedJobs i 0 (j :: rest) (deleteJobsToFail name ((j :: rest).map Job.id) db) with
    | .error e => .error e
    | .ok (db', count) => .ok (db', ⟨ids, ids.length, count, (j :: rest).map Job.id⟩)

/-- `failDistributed`. -/
def failDistributed (i : ReinsertInput) (name : String) (ids : List Uuid)
    (attempts : Option (List JobAttempt)) (db : Database) : Reply CommandResponse :=
  failSelected { i with forceTerminal := false } name ids (failSelects name ids attempts) db

/-- `new Map(items)`, read by id: the last item of an id wins. -/
def outputByIdMap (items : List (JobAttempt × Option Json)) (j : Job) : Option Json :=
  ((items.reverse.find? fun item => item.1.id = j.id).map Prod.snd).getD none

/-- The distributed branch of `#failWithOutputs`. -/
def failWithOutputsDistributed (i : ReinsertInput) (name : String)
    (items : List (JobAttempt × Option Json)) (forceTerminal : Bool) (db : Database) :
    Reply CommandResponse :=
  let ids := items.map fun item => item.1.id
  failSelected { i with output := outputByIdMap items, forceTerminal } name ids
    (failSelects name ids (some (items.map Prod.fst))) db

/-- `selectJobsToFailByTimeout` and `selectJobsToFailByHeartbeat`: at most `limit` matching rows. -/
def selectJobsToExpire (kind : Expiry) (now : Timestamp) (table : String) (queues : List String)
    (limit : ℕ) (db : Database) : List Job :=
  (db.jobs.filter (kind.predicate now table queues db)).take limit

/-- `expireJobsDistributed`: the number of jobs it went through. -/
def expireJobsDistributed (i : ReinsertInput) (kind : Expiry) (table : String) (queues : List String)
    (limit : ℕ) (db : Database) : Reply ℕ :=
  match selectJobsToExpire kind i.now table queues limit db with
  | [] => .ok (db, 0)
  | j :: rest =>
    reinsertFailedJobs { i with output := fun _ => some kind.output, forceTerminal := false } 0 (j :: rest)
      (deleteJobsByIds ((j :: rest).map Job.jobKey) db)

/-- The calls that reach the loop. -/
inductive ReinsertCall
  | fail (name : String) (ids : List Uuid) (attempts : Option (List JobAttempt))
  | failWithOutputs (name : String) (items : List (JobAttempt × Option Json)) (forceTerminal : Bool)
  | expire (kind : Expiry) (table : String) (queues : List String) (limit : ℕ)
  deriving DecidableEq, Repr

namespace ReinsertCall

/-- The output and the terminal flag the call sets. -/
def input (i : ReinsertInput) : ReinsertCall → ReinsertInput
  | fail _ _ _ => { i with forceTerminal := false }
  | failWithOutputs _ items forceTerminal => { i with output := outputByIdMap items, forceTerminal }
  | expire kind _ _ _ => { i with output := fun _ => some kind.output, forceTerminal := false }

/-- The rows the call selects, in the order the loop takes them. -/
def selected (now : Timestamp) (db : Database) : ReinsertCall → List Job
  | fail name ids attempts => db.jobs.filter (failSelects name ids attempts)
  | failWithOutputs name items _ =>
    db.jobs.filter (failSelects name (items.map fun item => item.1.id) (some (items.map Prod.fst)))
  | expire kind table queues limit => selectJobsToExpire kind now table queues limit db

/-- The call's statements, and the number of jobs it reports as affected. -/
def run (i : ReinsertInput) (db : Database) : ReinsertCall → Reply ℕ
  | fail name ids attempts =>
    (failDistributed i name ids attempts db).map fun (db', response) => (db', response.affected)
  | failWithOutputs name items forceTerminal =>
    (failWithOutputsDistributed i name items forceTerminal db).map fun (db', response) =>
      (db', response.affected)
  | expire kind table queues limit => expireJobsDistributed i kind table queues limit db

/-- The delete of the rows the call selected. -/
def deleteSelected (jobs : List Job) (db : Database) : ReinsertCall → Database
  | fail name _ _ => deleteJobsToFail name (jobs.map Job.id) db
  | failWithOutputs name _ _ => deleteJobsToFail name (jobs.map Job.id) db
  | expire _ _ _ _ => deleteJobsByIds (jobs.map Job.jobKey) db

/-- The call's statements as they are sent: the select, and where it found jobs the delete and the inserts. -/
def sent (i : ReinsertInput) (db : Database) (c : ReinsertCall) : Sent ℕ where
  reply := c.run i db
  tables := match c.selected i.now db with
    | [] => [db]
    | j :: rest =>
      db :: c.deleteSelected (j :: rest) db :: reinsertTables (c.input i) (j :: rest) (c.deleteSelected (j :: rest) db)

/-- The number of statements the call sends. -/
def statements (i : ReinsertInput) (db : Database) (c : ReinsertCall) : ℕ := (c.sent i db).tables.length

end ReinsertCall

end PgBoss
