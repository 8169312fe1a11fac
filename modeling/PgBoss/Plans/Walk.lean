import PgBoss.Retained.Walk
import PgBoss.Keyset.Walk

/-!
# The batches of a walk

`deleteJobsBatch` for any predicate and `cleanupDependencies` for either side, on both backends,
with the loops of `#walk` and `#deleteInBatches` that hand each batch's cursor to the next. The
loops take fuel; `predicate n` is the statement's predicate at batch `n`, since the retention
predicate reads `job_now()`.
-/

namespace PgBoss

/-- `backend === 'cockroachdb'`, or not. -/
inductive WalkBackend
  | postgres
  | cockroachdb
  deriving DecidableEq, Repr

/-- `WalkBatchOptions`. -/
structure WalkBatchOptions where
  after : Option Uuid := none
  batchSize : ℕ
  backend : WalkBackend

/-- `MAX_UUID`. -/
def maxUuid : Uuid := Fin.last _

/-- `id > after`, where there is a cursor. -/
def WalkBatchOptions.cursor (o : WalkBatchOptions) (id : Uuid) : Bool := o.after.all fun after => decide (after < id)

/-- The `edge` CTE over the keys after the cursor. -/
def WalkBatchOptions.edge (o : WalkBatchOptions) (keys : List Uuid) : Option Uuid :=
  (keys.insertionSort (· ≤ ·))[o.batchSize - 1]?

/-- `walkBatchBound`: `keys` are the walk's keys after the cursor. -/
def walkBatchBound (o : WalkBatchOptions) (keys : List Uuid) (id : Uuid) : Bool :=
  match o.backend with
  | .cockroachdb => decide (id ∈ (keys.insertionSort (· ≤ ·)).take o.batchSize)
  | .postgres => decide (id ≤ (o.edge keys).getD maxUuid)

/-- The keys of the queue after the cursor. -/
def WalkBatchOptions.jobKeys (o : WalkBatchOptions) (name : String) (jobs : List Job) : List Uuid :=
  (jobs.filter fun j => decide (j.name = name) && o.cursor j.id).map Job.id

/-- The `range` of `deleteJobsBatch`. -/
def WalkBatchOptions.range (o : WalkBatchOptions) (name : String) (jobs : List Job) (j : Job) : Bool :=
  decide (j.name = name) && o.cursor j.id && walkBatchBound o (o.jobKeys name jobs) j.id

/-- The queue's `retained_on`, and `retainedBefore`, which only the retention sweep gives. -/
structure WalkCounts where
  retainedOn : Option Int
  retainedBefore : Option Int := none

/-- `deleteJobsBatch`: the jobs it leaves, those it removed, and its row. -/
def deleteWalkBatch (name : String) (counts : WalkCounts) (predicate : Job → Bool) (o : WalkBatchOptions)
    (jobs : List Job) : List Job × List Job × WalkRow :=
  let range := o.range name jobs
  let removed := jobs.filter fun j => range j && predicate j
  (jobs.filter fun j => !(range j && predicate j), removed,
    { walkCursor := o.edge (o.jobKeys name jobs)
      deleted := removed.length
      deletedRetained := removed.countP (finishedBy name counts.retainedOn)
      retained := (jobs.countP fun j => range j && finishedBy name counts.retainedBefore j) -
        removed.countP (finishedBy name counts.retainedBefore) })

/-- What a walk comes to: the jobs left, its totals, and the jobs each batch removed. -/
structure WalkResult where
  jobs : List Job
  tally : WalkTally
  batches : List (List Job)
  deriving DecidableEq

/-- `#walk` of the retention sweep and `#deleteInBatches`. -/
def walkJobs (name : String) (counts : WalkCounts) : ℕ → (ℕ → Job → Bool) → WalkBatchOptions → List Job → WalkTally →
    Option WalkResult
  | 0, _, _, _, _ => none
  | fuel + 1, predicate, o, jobs, tally =>
    let (jobs', removed, row) := deleteWalkBatch name counts (predicate 0) o jobs
    match row.walkCursor with
    | none => some ⟨jobs', tally.add row, [removed]⟩
    | some walkCursor =>
      (walkJobs name counts fuel (fun n => predicate (n + 1)) { o with after := some walkCursor } jobs'
        (tally.add row)).map fun result => { result with batches := removed :: result.batches }

/-- The sides of a dependency. -/
inductive DependencySide
  | child
  | parent
  deriving DecidableEq, Repr

/-- The job on that side. -/
def DependencySide.job : DependencySide → Dependency → JobKey
  | child, d => d.child
  | parent, d => d.parent

/-- The keys of the dependency rows of the queue after the cursor. -/
def WalkBatchOptions.dependencyKeys (o : WalkBatchOptions) (name : String) (side : DependencySide)
    (dependencies : List Dependency) : List Uuid :=
  (dependencies.filter fun d => decide ((side.job d).1 = name) && o.cursor (side.job d).2).map fun d => (side.job d).2

/-- The rows `cleanupDependencies` deletes: `NOT EXISTS` looks for the job between the cursor and
the edge. -/
def cleanupSelects (name : String) (side : DependencySide) (o : WalkBatchOptions) (db : Database) (d : Dependency) :
    Bool :=
  let keys := o.dependencyKeys name side db.dependencies
  decide ((side.job d).1 = name) && o.cursor (side.job d).2 && walkBatchBound o keys (side.job d).2 &&
    !db.jobs.any fun j => decide (j.name = name) && o.cursor j.id && decide (j.id ≤ (o.edge keys).getD maxUuid) &&
      decide (j.id = (side.job d).2)

/-- `cleanupDependencies`: the rows it leaves, those it removed, and its cursor. -/
def cleanupDependencies (name : String) (side : DependencySide) (o : WalkBatchOptions) (db : Database) :
    Database × List Dependency × Option Uuid :=
  ({ db with dependencies := db.dependencies.filter fun d => !cleanupSelects name side o db d },
    db.dependencies.filter (cleanupSelects name side o db), o.edge (o.dependencyKeys name side db.dependencies))

/-- `#walk` of the dependency cleanup on one side. -/
def walkDependencies (name : String) (side : DependencySide) : ℕ → WalkBatchOptions → Database →
    Option (Database × List (List Dependency))
  | 0, _, _ => none
  | fuel + 1, o, db =>
    let (db', removed, walkCursor) := cleanupDependencies name side o db
    match walkCursor with
    | none => some (db', [removed])
    | some walkCursor =>
      (walkDependencies name side fuel { o with after := some walkCursor } db').map fun result =>
        (result.1, removed :: result.2)

/-- Both walks of the dependency cleanup, by child and then by parent. -/
def cleanupBothSides (name : String) (fuel : ℕ) (o : WalkBatchOptions) (db : Database) :
    Option (Database × List (List Dependency)) :=
  (walkDependencies name .child fuel o db).bind fun children =>
    (walkDependencies name .parent fuel o children.1).map fun parents => (parents.1, children.2 ++ parents.2)

end PgBoss
