import PgBoss.Plans.UuidText
import PgBoss.Manager.FailDistributed

/-!
# The settles of a transactional handler

A transactional worker hands its handler a transaction. The handler may settle jobs through it
with `complete()`, `fail()`, `cancel()` or `deleteJob()`; each call records the ids it touched,
and one that names only jobs of the batch is fenced to the attempts the worker fetched. When the
handler has returned, `#processJobs` completes the batch on the same transaction, fenced, and
commits if the rows it touched and the recorded ids account for every job of the batch.

`db` is the tables as the transaction sees them. The rows its own statements have touched are
locked until it ends, so outside operations leave those alone and do anything to the others.
-/

namespace PgBoss

/-- The public calls that settle a job, on either failure path. -/
inductive SettleMethod
  | complete (now : Timestamp) (output : Option Json) (includeQueued : Bool)
  | fail (i : FailInput)
  | failDistributed (i : ReinsertInput)
  | cancel (now : Timestamp)
  | deleteJob

namespace SettleMethod

/-- The rows the method's statement selects. -/
def selects (name : String) (ids : List Uuid) (attempts : Option (List JobAttempt)) : SettleMethod → Job → Bool
  | complete _ _ includeQueued => completeSelects name ids includeQueued attempts
  | fail _ => failSelects name ids attempts
  | failDistributed _ => failSelects name ids attempts
  | cancel _ => cancelSelects name ids attempts
  | deleteJob => fun j => named name ids j && fence attempts j

/-- The method's statement, or statements, and the ids it returns as `settled`. -/
def run (name : String) (ids : List Uuid) (attempts : Option (List JobAttempt)) (db : Database) :
    SettleMethod → Reply (List Uuid)
  | complete now output includeQueued => completeJobs now name ids output includeQueued attempts db
  | fail i => (failJobsById i name ids attempts db).map fun (db', rows) => (db', rows.map Job.id)
  | failDistributed i =>
    (PgBoss.failDistributed i name ids attempts db).map fun (db', response) => (db', response.settled)
  | cancel now => cancelJobs now name ids attempts db
  | deleteJob => deleteJobsById name ids attempts db

end SettleMethod

/-- The id argument of a settle: ids, or jobs with the attempt each was fetched at. -/
inductive SettleArg
  | plain (ids : List String)
  | fetched (jobs : List (String × ℕ))

/-- `mapAttemptArg`. -/
def SettleArg.mapAttemptArg : SettleArg → List String × Option (List ℕ)
  | plain ids => (ids, none)
  | fetched jobs => (jobs.map Prod.fst, some (jobs.map Prod.snd))

/-- `#handlerAttempts`: the attempts of the ids, when every id is one of the batch's. -/
def handlerAttempts (claims : List (String × ℕ)) (ids : List String) : Option (List ℕ) :=
  ids.mapM fun id => claims.lookup id

/-- A settle on `{ db: tx }`. -/
structure SettleCall where
  method : SettleMethod
  name : String
  arg : SettleArg

namespace SettleCall

/-- `fetched ?? this.#handlerAttempts(options, ids)`. -/
def attempts (claims : List (String × ℕ)) (c : SettleCall) : Option (List ℕ) :=
  match c.arg.mapAttemptArg.2 with
  | some fetched => some fetched
  | none => handlerAttempts claims c.arg.mapAttemptArg.1

/-- The pairs `attemptPairs` makes of them, by the ids they spell. -/
def pairs (claims : List (String × ℕ)) (c : SettleCall) (ids : List Uuid) : Option (List JobAttempt) :=
  (c.attempts claims).map (List.zipWith JobAttempt.mk ids)

/-- The rows the call selects: none when an id spells no uuid. -/
def selects (claims : List (String × ℕ)) (c : SettleCall) (j : Job) : Bool :=
  (c.arg.mapAttemptArg.1.mapM uuidIn).any fun ids => c.method.selects c.name ids (c.pairs claims ids) j

/-- The call on the transaction, none when it raises. -/
def run (claims : List (String × ℕ)) (c : SettleCall) (db : Database) : Option (Database × List Uuid) :=
  (c.arg.mapAttemptArg.1.mapM uuidIn).bind fun ids =>
    (c.method.run c.name ids (c.pairs claims ids) db).toOption

end SettleCall

/-- The jobs one fetch handed a worker, with the retry counts it claimed them at. -/
structure Batch where
  name : String
  jobs : List JobAttempt
  distinct : (jobs.map JobAttempt.id).Nodup

namespace Batch

/-- `jobIds`. -/
def jobIds (b : Batch) : List String := b.jobs.map fun a => uuidText a.id

/-- `new Map(jobs.map(job => [job.id, job.retryCount]))`. -/
def claims (b : Batch) : List (String × ℕ) := b.jobs.map fun a => (uuidText a.id, a.retryCount)

/-- The completion `#processJobs` runs once the handler has returned. -/
def completion (b : Batch) (now : Timestamp) (output : Option Json) : SettleCall where
  method := .complete now output false
  name := b.name
  arg := .fetched b.claims

end Batch

/-- `#assertClaimHeld` passes. -/
def claimHeld (jobIds : List String) (affected : ℕ) (settledByHandler : List String) : Bool :=
  !decide (affected + (jobIds.filter fun id => decide (id ∈ settledByHandler)).length < jobIds.length)

/-- The open transaction of a batch: the tables as it sees them, the ids recorded from the
handler's settles, and the rows those found, as they found them. A statement that raised leaves
the transaction aborted. -/
structure BatchWorld where
  db : Database
  settled : List String := []
  touched : List Job := []
  aborted : Bool := false

namespace BatchWorld

/-- A settle the handler makes, recorded by `#trackHandlerSettle`. -/
def call (b : Batch) (c : SettleCall) (w : BatchWorld) : BatchWorld :=
  if w.aborted then w
  else
    match c.run b.claims w.db with
    | none => { w with aborted := true }
    | some (db', ids) => {
        w with
        db := db'
        settled := ids.map uuidText ++ w.settled
        touched := w.db.jobs.filter (c.selects b.claims) ++ w.touched }

/-- What outside operations may do meanwhile: nothing to the rows the transaction has touched. -/
def Outside (w : BatchWorld) (db' : Database) : Prop :=
  db'.Allowed ∧ ∀ j : Job, j.jobKey ∈ w.touched.map Job.jobKey → (j ∈ db'.jobs ↔ j ∈ w.db.jobs)

/-- One step before the handler returns. -/
inductive Step (b : Batch) (may : BatchWorld → SettleCall → Prop) (w : BatchWorld) : BatchWorld → Prop
  | call (c : SettleCall) (hmay : may w c) : Step b may w (w.call b c)
  | outside (db' : Database) (h : w.Outside db') : Step b may w { w with db := db' }

/-- Any number of steps. A handler that sets a savepoint of its own and rolls back to it, which takes back settles that
stay recorded, is left out. -/
abbrev Run (b : Batch) (may : BatchWorld → SettleCall → Prop) : BatchWorld → BatchWorld → Prop :=
  Relation.ReflTransGen (Step b may)

/-- The transaction has just begun. -/
structure Start (w : BatchWorld) : Prop where
  allowed : w.db.Allowed
  settled : w.settled = []
  touched : w.touched = []

end BatchWorld

/-- How `#processJobs` ends the transaction. -/
inductive BatchOutcome
  | committed
  | rolledBack
  deriving DecidableEq, Repr

/-- `#processJobs` from where the handler has returned, or thrown, timed out or been abandoned. -/
def BatchWorld.processJobs (b : Batch) (threw : Bool) (now : Timestamp) (output : Option Json) (w : BatchWorld) :
    BatchOutcome :=
  if threw || w.aborted then .rolledBack
  else
    match (b.completion now output).run b.claims w.db with
    | none => .rolledBack
    | some (_, ids) => if claimHeld b.jobIds ids.length w.settled then .committed else .rolledBack

end PgBoss
