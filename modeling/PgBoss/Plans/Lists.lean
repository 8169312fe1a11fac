import PgBoss.Keyset.Pages
import PgBoss.Plans.Instance
import PgBoss.Plans.IsoText
import PgBoss.Timekeeper.Occurrence

/-!
# The list reads

The reads that return a table in pages, each with its own order and row comparison, and what their callers pass
as the row to go on from.
-/

namespace PgBoss

open Relational Keyset

/-- The order a collation gives texts, which tells all of them apart. -/
structure Collation where
  Rank : Type
  order : LinearOrder Rank
  rank : String → Rank
  injective : Function.Injective rank

instance (c : Collation) : LinearOrder c.Rank := c.order

/-- `ORDER BY`, and `LIMIT` where there is one. -/
def orderedUpTo {Row : Type} (before : Row → Row → Prop) [DecidableRel before] (limit : Option ℕ) (rows : List Row) :
    List Row :=
  match limit with
  | some limit => orderLimit before limit rows
  | none => rows.insertionSort before

section Jobs

variable (contains : Json → Json → Bool)

/-- The filters of `findJobs`. -/
structure FindJobsFilter where
  id : Option Uuid := none
  key : Option String := none
  data : Option Json := none
  queued : Bool := false
  deriving DecidableEq, Repr

/-- The conditions of `findJobs` other than that on the page. `contains` is `@>`. -/
def FindJobsFilter.selects (name : String) (o : FindJobsFilter) (j : Job) : Bool :=
  decide (j.name = name) && o.id.all (fun id => decide (j.id = id)) &&
    o.key.all (fun key => decide (j.singletonKey = some key)) && o.data.all (fun data => j.data.any fun d => contains d data) &&
    (!o.queued || decide (j.state < .active))

/-- `(created_on, id)`. -/
def createdKey (j : Job) : Timestamp ×ₗ Uuid := toLex (j.createdOn, j.id)

/-- `findJobs`. -/
def findJobs (name : String) (o : FindJobsFilter) (after : Option (Timestamp × Uuid)) (limit : ℕ) (jobs : List Job) : List Job :=
  orderLimit (keyOrder createdKey) limit <| jobs.filter fun j =>
    o.selects contains name j && after.all fun (createdOn, id) =>
      decide (createdOn ≤ j.createdOn) && decide (toLex (createdOn, id) < createdKey j)

/-- `findJobsAnchor`. -/
def findJobsAnchor (name : String) (id : Uuid) (jobs : List Job) : Option (List Char) :=
  (jobs.find? fun j => decide (j.name = name) && decide (j.id = id)).map fun j => utcIsoText j.createdOn

/-- The page of `findJobs()` after a job. It fails where that job is gone. -/
def findJobsPage (name : String) (o : FindJobsFilter) (limit : ℕ) (jobs : List Job) : Option Job → Option (List Job)
  | none => some (findJobs contains name o none limit jobs)
  | some last => do
    let createdOn ← findJobsAnchor name last.id jobs
    let createdOn ← timestamptz createdOn
    return findJobs contains name o (some (createdOn, last.id)) limit jobs

end Jobs

section Texts

variable (c : Collation)

/-- `(name, id)`. -/
def jobRefKey (k : JobKey) : c.Rank ×ₗ Uuid := toLex (c.rank k.1, k.2)

/-- `getDependencies` of a child. -/
def getDependencies (child : JobKey) (after : Option JobKey) (limit : ℕ) (deps : List Dependency) : List JobKey :=
  (orderLimit (keyOrder fun d : Dependency => jobRefKey c d.parent) limit <| deps.filter fun d =>
    decide (d.child = child) && after.all fun last => decide (jobRefKey c last < jobRefKey c d.parent)).map Dependency.parent

/-- `getDependents` of a parent. -/
def getDependents (parent : JobKey) (after : Option JobKey) (limit : ℕ) (deps : List Dependency) : List JobKey :=
  (orderLimit (keyOrder fun d : Dependency => jobRefKey c d.child) limit <| deps.filter fun d =>
    decide (d.parent = parent) && after.all fun last => decide (jobRefKey c last < jobRefKey c d.child)).map Dependency.child

/-- A key in its order, nulls last. -/
def nullsLast (key : Option String) : WithTop c.Rank := key.map c.rank

/-- The failed jobs that block a key. -/
def blocksKey (name : String) (j : Job) : Bool :=
  decide (j.name = name) && decide (j.state = .failed) && decide (j.policy = some .keyStrictFifo)

/-- `a > b`, which is not true where either is null. -/
def textGreater (a b : Option String) : Bool := a.any fun a => b.any fun b => decide (c.rank b < c.rank a)

/-- `getBlockedKeys`. -/
def getBlockedKeys (name : String) (after : Option (Option String)) (limit : ℕ) (jobs : List Job) : List (Option String) :=
  orderLimit (keyOrder (nullsLast c)) limit
    ((jobs.filter fun j => blocksKey name j && after.all (textGreater c j.singletonKey)).map Job.singletonKey).dedup

/-- `assertListAfter`: `after` is left out, or a text that is not empty. -/
def assertListAfter (after : Option (Option String)) : Bool := after.all fun text => text.any fun text => decide (text ≠ "")

/-- The page of `getBlockedKeys()` after a key. It fails on a queue of another policy and where `after` is refused. -/
def getBlockedKeysPage (q : Queue) (limit : ℕ) (jobs : List Job) (after : Option (Option String)) :
    Option (List (Option String)) := do
  guard (assertListAfter after)
  guard (q.policy = .keyStrictFifo)
  return getBlockedKeys c q.name after limit jobs

/-- `getQueues`. -/
def getQueues (names : List String) (limit : Option ℕ) (after : Option String) (queues : List Queue) : List Queue :=
  orderedUpTo (keyOrder fun q : Queue => c.rank q.name) limit <| queues.filter fun q =>
    (names.isEmpty || decide (q.name ∈ names)) && after.all fun last => decide (c.rank last < c.rank q.name)

/-- The page of `getQueues()` after a queue. -/
def getQueuesPage (names : List String) (limit : ℕ) (queues : List Queue) (after : Option Queue) : Option (List Queue) := do
  guard (assertListAfter (after.map fun q => some q.name))
  return getQueues c names (some limit) (after.map Queue.name) queues

/-- `(name, key)`. -/
def scheduleKey (s : Schedule) : c.Rank ×ₗ c.Rank := toLex (c.rank s.name, c.rank s.key)

/-- `getSchedules`. -/
def getSchedules (limit : Option ℕ) (after : Option Schedule) (schedules : List Schedule) : List Schedule :=
  orderedUpTo (keyOrder (scheduleKey c)) limit <| schedules.filter fun s =>
    after.all fun last => decide (scheduleKey c last < scheduleKey c s)

/-- `getSchedulesByQueue`. -/
def getSchedulesByQueue (name : String) (limit : Option ℕ) (after : Option Schedule) (schedules : List Schedule) : List Schedule :=
  orderedUpTo (keyOrder fun s : Schedule => c.rank s.key) limit <| schedules.filter fun s =>
    decide (s.name = name) && after.all fun last => decide (scheduleKey c last < scheduleKey c s)

end Texts

section Instances

/-- `(started_on, id)`. -/
def startedKey (i : InstanceRow) : Timestamp ×ₗ Uuid := toLex (i.startedOn, i.id)

/-- `getInstances`. Where `after` names no row, the comparison is with null and selects none. -/
def getInstances (after : Option Uuid) (limit : ℕ) (instances : List InstanceRow) : List InstanceRow :=
  orderLimit (keyOrder startedKey) limit <| instances.filter fun i => after.all fun id =>
    (instances.find? fun k => decide (k.id = id)).any fun last => decide (toLex (last.startedOn, id) < startedKey i)

/-- `getInstances()`, which fails where a page is empty because the row to go on from is gone. -/
def getInstancesPage (limit : ℕ) (instances : List InstanceRow) (after : Option InstanceRow) : Option (List InstanceRow) :=
  let rows := getInstances (after.map InstanceRow.id) limit instances
  if after.any (fun last => rows.isEmpty && !instances.any fun i => decide (i.id = last.id)) then none else some rows

end Instances

end PgBoss
