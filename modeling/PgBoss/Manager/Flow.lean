import PgBoss.Plans.Insert
import PgBoss.Plans.Flow

/-!
# Flows

`#flow` inserts jobs that depend on each other in one transaction: the jobs queue by queue,
each child blocked with the number of its distinct parents and each parent flagged as
blocking, then the dependency rows. The navigator resolves completed parents, with
`resolveFlowJobs` in one statement or with `resolveFlowJobsDistributed` queue by queue.
-/

namespace PgBoss

open Relational

/-- A job of a flow, its send options checked. Other jobs name it by its `ref`. -/
structure FlowJob where
  ref : String
  name : String
  options : JobInsert := {}
  dependsOn : List String := []
  deriving DecidableEq, Repr

/-- `refToId`: the id given, else one that is `drawn`. -/
def FlowJob.id (drawn : String → Uuid) (job : FlowJob) : Uuid := job.options.id.getD (drawn job.ref)

/-- The primary key a job of a flow gets. -/
def FlowJob.key (drawn : String → Uuid) (job : FlowJob) : JobKey := (job.name, job.id drawn)

/-- `[...new Set(job.dependsOn ?? [])]`. -/
def FlowJob.parents (job : FlowJob) : List String := job.dependsOn.dedup

/-- `refToJob.get(ref)`. -/
def refToJob (jobs : List FlowJob) (ref : String) : Option FlowJob := jobs.find? (·.ref = ref)

/-- `parentRefs.has(ref)`. -/
def isParentRef (jobs : List FlowJob) (ref : String) : Bool := jobs.any fun job => decide (ref ∈ job.parents)

/-- `depRows`. -/
def flowDependencies (drawn : String → Uuid) (jobs : List FlowJob) : List Dependency :=
  jobs.flatMap fun job => job.parents.filterMap fun ref =>
    (refToJob jobs ref).map fun parent => ⟨job.key drawn, parent.key drawn⟩

/-- The payload row of a job. -/
def flowPayload (drawn : String → Uuid) (jobs : List FlowJob) (job : FlowJob) : JobInsert :=
  { job.options with
    id := some (job.id drawn)
    singletonOffset := none
    singletonSlot := none
    blocked := if 0 < job.parents.length then some true else none
    blocking := if isParentRef jobs job.ref then some true else none
    pendingDependencies := if job.parents.length = 0 then none else some job.parents.length }

/-- The jobs of one queue, each with its payload row. -/
def flowBatch (drawn : String → Uuid) (jobs : List FlowJob) (name : String) : List (JobInsert × Uuid) :=
  (jobs.filter (·.name = name)).map fun job => (flowPayload drawn jobs job, job.id drawn)

/-- The keys of `byQueue`, in the order the jobs name them. -/
def flowQueues (jobs : List FlowJob) : List String := (jobs.map FlowJob.name).reverse.dedup.reverse

/-- The inserts of a flow, queue by queue; one that skips a row ends the transaction. -/
def insertFlowQueues (now : Timestamp) (drawn : String → Uuid) (jobs : List FlowJob) :
    List String → Database → Except SqlError Database
  | [], db => .ok db
  | name :: rest, db =>
    match insertFlowJobs now name (flowBatch drawn jobs name) db with
    | .error e => .error e
    | .ok (db', _) => insertFlowQueues now drawn jobs rest db'

/-- `#flow`, one transaction. -/
def flow (now : Timestamp) (drawn : String → Uuid) (jobs : List FlowJob) (db : Database) :
    Except SqlError Database :=
  (insertFlowQueues now drawn jobs (flowQueues jobs) db).map (insertDependencies (flowDependencies drawn jobs))

/-- What `validateFlowJobs` establishes of the refs: distinct, and every one depended on is there. -/
structure FlowJobs (jobs : List FlowJob) : Prop where
  nodup : (jobs.map FlowJob.ref).Nodup
  closed : ∀ job ∈ jobs, ∀ ref ∈ job.dependsOn, ref ∈ jobs.map FlowJob.ref

instance (jobs : List FlowJob) : Decidable (FlowJobs jobs) :=
  decidable_of_iff ((jobs.map FlowJob.ref).Nodup ∧ ∀ job ∈ jobs, ∀ ref ∈ job.dependsOn, ref ∈ jobs.map FlowJob.ref)
    ⟨fun h => ⟨h.1, h.2⟩, fun h => ⟨h.nodup, h.closed⟩⟩

/-- `resolveFlowJobs`: the number of parents resolved. `missed` are the children that were deleted and
inserted anew between the statement's snapshot and its lock on them. -/
def resolveFlowJobs (now : Timestamp) (names : List String) (locked missed : List JobKey) (db : Database) :
    Reply ℕ :=
  let parents := selectBlockingParents names locked db
  match resolveParents now parents missed db with
  | .error e => .error e
  | .ok (db', cleared) => .ok (db', cleared.length)

/-- The keys of `idsByName`. -/
def parentQueues (parents : List JobKey) : List String := (parents.map Prod.fst).reverse.dedup.reverse

/-- The loop of `resolveFlowJobsDistributed` over its parents' queues; `missed` are the children each
`decrementDependents` missed. -/
def resolveQueues (now : Timestamp) (parents : List JobKey) (missed : String → List JobKey) :
    List String → Database → Except SqlError Database
  | [], db => .ok db
  | name :: rest, db =>
    match resolveParents now (parents.filter (·.1 = name)) (missed name) db with
    | .error e => .error e
    | .ok (db', _) => resolveQueues now parents missed rest db'

/-- `resolveFlowJobsDistributed`: the number of parents it locked. -/
def resolveFlowJobsDistributed (now : Timestamp) (names : List String) (locked : List JobKey)
    (missed : String → List JobKey) (db : Database) : Reply ℕ :=
  let parents := selectBlockingParents names locked db
  (resolveQueues now parents missed (parentQueues parents) db).map fun db' => (db', parents.length)

end PgBoss
