import PgBoss.Plans.Fetch
import PgBoss.Plans.Insert
import PgBoss.Plans.Delete
import PgBoss.Plans.Redrive
import PgBoss.Plans.Flow
import PgBoss.Manager.FailDistributed

/-!
# The statements of a run

Everything that writes to the tables, as one type. A statement is atomic: it sees what was
committed before it and, where it waits for a row, tests its predicate again on the row as it
is then. One that raises leaves the tables as they were. The multi-statement failures are
their transaction, and the resolver's two updates are taken one by one. `moveRows` is the
database moving rows about, so that no run depends on the order a table is scanned in.
-/

namespace PgBoss

/-- The statements of a run, by the function that builds them. -/
inductive Statement
  | insertJobs (now : Timestamp) (name : String) (upsertByKey : Bool) (payload : List (JobInsert × Uuid))
  | insertFlowJobs (now : Timestamp) (name : String) (payload : List (JobInsert × Uuid))
  | fetchNextJob (now : Timestamp) (rank : Job → ℕ) (locked : List JobKey) (o : FetchOptions)
  | completeJobs (now : Timestamp) (name : String) (ids : List Uuid) (output : Option Json)
      (includeQueued : Bool) (attempts : Option (List JobAttempt))
  | completeJobsWithOutputs (now : Timestamp) (name : String) (items : List (JobAttempt × Option Json))
  | cancelJobs (now : Timestamp) (name : String) (ids : List Uuid) (attempts : Option (List JobAttempt))
  | touchJobs (now : Timestamp) (name : String) (ids : List Uuid) (attempts : Option (List JobAttempt))
  | deleteJobsById (name : String) (ids : List Uuid) (attempts : Option (List JobAttempt))
  | deleteJobsBatch (now : Timestamp) (name : String) (kind : WalkDelete) (after : Option Uuid) (batchSize : ℕ)
  | resumeJobs (now : Timestamp) (name : String) (ids : List Uuid)
  | restoreJobs (name : String) (ids : List Uuid)
  | retryJobs (now : Timestamp) (name : String) (ids : List Uuid)
  | updateJob (now : Timestamp) (name : String) (target : UpdateTarget) (o : UpdatePayload)
  | failJobs (i : FailInput) (call : FailCall)
  | failDistributed (i : ReinsertInput) (call : ReinsertCall)
  | redriveJobs (o : RedriveOptions) (locked : List JobKey)
  | decrementDependents (now : Timestamp) (parents missed : List JobKey)
  | clearBlocking (parents : List JobKey)
  | insertDependencies (deps : List Dependency)
  | createQueue (q : Queue)
  | updateQueue (name : String) (o : QueueUpdate)
  | deleteQueue (name : String)
  | moveRows (swap : List Job → List Job)

namespace Statement

/-- The tables a statement leaves, or the error it raises. -/
def exec (db : Database) : Statement → Except SqlError Database
  | insertJobs now name upsertByKey payload =>
    (PgBoss.insertJobs now name upsertByKey payload db).map Prod.fst
  | insertFlowJobs now name payload => (PgBoss.insertFlowJobs now name payload db).map Prod.fst
  | fetchNextJob now rank locked o => (PgBoss.fetchNextJob now rank locked o db).map Prod.fst
  | completeJobs now name ids output includeQueued attempts =>
    (PgBoss.completeJobs now name ids output includeQueued attempts db).map Prod.fst
  | completeJobsWithOutputs now name items => (PgBoss.completeJobsWithOutputs now name items db).map Prod.fst
  | cancelJobs now name ids attempts => (PgBoss.cancelJobs now name ids attempts db).map Prod.fst
  | touchJobs now name ids attempts => (PgBoss.touchJobs now name ids attempts db).map Prod.fst
  | deleteJobsById name ids attempts => (PgBoss.deleteJobsById name ids attempts db).map Prod.fst
  | deleteJobsBatch now name kind after batchSize =>
    (PgBoss.deleteJobsBatch now name kind after batchSize db).map Prod.fst
  | resumeJobs now name ids => (PgBoss.resumeJobs now name ids db).map Prod.fst
  | restoreJobs name ids => (PgBoss.restoreJobs name ids db).map Prod.fst
  | retryJobs now name ids => (PgBoss.retryJobs now name ids db).map Prod.fst
  | updateJob now name target o => (PgBoss.updateJob now name target o db).map Prod.fst
  | failJobs i call => (call.run i db).map Prod.fst
  | failDistributed i call => (call.run i db).map Prod.fst
  | redriveJobs o locked => (PgBoss.redriveJobs o locked db).map Prod.fst
  | decrementDependents now parents missed =>
    (PgBoss.decrementDependents now parents missed db).map Prod.fst
  | clearBlocking parents => (PgBoss.clearBlocking parents db).map Prod.fst
  | insertDependencies deps => .ok (PgBoss.insertDependencies deps db)
  | createQueue q => PgBoss.createQueue q db
  | updateQueue name o => PgBoss.updateQueue name o db
  | deleteQueue name => PgBoss.deleteQueue name db
  | moveRows swap => if (swap db.jobs).Perm db.jobs then .ok { db with jobs := swap db.jobs } else .ok db

/-- The statement of `restore()`. -/
def isRestore : Statement → Bool
  | restoreJobs _ _ => true
  | _ => false

/-- The statements that write `blocked`, `blocking` or `pending_dependencies` of a row there is. -/
def writesFlow : Statement → Bool
  | completeJobs _ _ _ _ includeQueued _ => includeQueued
  | decrementDependents _ _ _ => true
  | clearBlocking _ => true
  | _ => false

/-- The rows a statement returns as claimed. -/
def claimed (db : Database) : Statement → List Job
  | fetchNextJob now rank locked o =>
    match PgBoss.fetchNextJob now rank locked o db with
    | .ok (_, rows) => rows
    | .error _ => []
  | _ => []

end Statement

end PgBoss
