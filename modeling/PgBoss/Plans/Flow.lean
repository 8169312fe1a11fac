import PgBoss.Plans.Settle

/-!
# The statements of the flow resolver

A completed parent whose `blocking` flag is set is waiting to be resolved. A pass locks a
batch of such parents, takes from the `pending_dependencies` of each blocked child the number
of its parents in the batch, and clears the flags. `resolveFlowJobs` does it in one
statement, and the split path in `selectBlockingParents`, `decrementDependents` and
`clearBlocking`.
-/

namespace PgBoss

open Relational

/-- `FLOW_BATCH_SIZE`. -/
def flowBatchSize : ℕ := 1000

/-- The parents a pass may lock. -/
def blockingParent (names : List String) (locked : List JobKey) (j : Job) : Bool :=
  j.blocking && decide (j.state = .completed) && decide (j.name ∈ names) && decide (j.jobKey ∉ locked)

/-- `ORDER BY name, id`. -/
def keyBefore (a b : JobKey) : Prop := a.1 < b.1 ∨ a.1 = b.1 ∧ a.2 ≤ b.2

instance : DecidableRel keyBefore := fun _ _ => inferInstanceAs (Decidable (_ ∨ _ ∧ _))

/-- `selectBlockingParents`, and the `locked_parents` CTE: the first batch by name and id. -/
def selectBlockingParents (names : List String) (locked : List JobKey) (db : Database) : List JobKey :=
  (((db.jobs.filter (blockingParent names locked)).map Job.jobKey).insertionSort keyBefore).take flowBatchSize

/-- `n` of the `decremented` CTE: how many of the parents a child has. -/
def parentsAmong (parents : List JobKey) (db : Database) (child : JobKey) : ℕ :=
  db.dependencies.countP fun d => decide (d.child = child) && decide (d.parent ∈ parents)

/-- The columns `unblockChildrenUpdate` sets. -/
def unblockSet (now : Timestamp) (n : ℕ) (j : Job) : Job :=
  { j with
    pendingDependencies := j.pendingDependencies - n
    blocked := decide (0 < j.pendingDependencies - n)
    startAfter := if j.pendingDependencies - n = 0 then max j.startAfter now else j.startAfter }

/-- The rows `locked_children` holds: blocked children of the parents, less those in `missed`,
whose row was deleted and inserted anew after the statement took its snapshot. -/
def lockedChild (parents missed : List JobKey) (db : Database) (j : Job) : Bool :=
  j.blocked && decide (0 < parentsAmong parents db j.jobKey) && decide (j.jobKey ∉ missed)

/-- `decrementDependents`, and the `unblocked` CTE. -/
def decrementDependents (now : Timestamp) (parents missed : List JobKey) (db : Database) : Reply (List Uuid) :=
  db.updateWhere (lockedChild parents missed db) fun j => unblockSet now (parentsAmong parents db j.jobKey) j

/-- The column `clearBlocking` sets. -/
def clearSet (j : Job) : Job := { j with blocking := false }

/-- `clearBlocking`, and the `cleared` CTE. -/
def clearBlocking (parents : List JobKey) (db : Database) : Reply (List Uuid) :=
  db.updateWhere (fun j => decide (j.jobKey ∈ parents)) clearSet

/-- The writes of a pass over the parents it locked. -/
def resolveParents (now : Timestamp) (parents missed : List JobKey) (db : Database) : Reply (List Uuid) :=
  match decrementDependents now parents missed db with
  | .error e => .error e
  | .ok (db', _) => clearBlocking parents db'

end PgBoss
