import PgBoss.Relational.UniqueIndex

/-!
# The job and queue tables

The columns, policy indexes and check constraint that `plans.ts` creates. Several queues may
share one table, so rows are identified by queue name and id. Every index leads with the
queue name; a queue with a table of its own carries the same constraints on its rows, so one
list of rows stands for the shared table and the queues' own tables together.

Instants are microseconds since the epoch, the resolution of `timestamptz`, and `jsonb`
values are their text. A queue's counters and monitor stamps are not modelled here: no
statement on jobs that is modelled here reads them.
-/

namespace PgBoss

open Relational

/-- A uuid, ordered as the database orders it. -/
abbrev Uuid := Fin (2 ^ 128)

-- found by these names wherever a numeral or a comparison of uuids needs them
instance uuidBound_neZero : NeZero (2 ^ 128) := inferInstance

instance : LawfulBEq Uuid := inferInstance

instance : LawfulBEq (String × Uuid) := inferInstance

/-- Microseconds since the epoch. -/
abbrev Timestamp := Int

/-- A `jsonb` value as text. -/
abbrev Json := String

/-- `n * interval '1s'`. -/
def seconds (n : Int) : Int := n * 1000000

/-- `JOB_STATES`, in the order of the `job_state` enum. -/
inductive JobState
  | created | retry | active | completed | cancelled | failed
  deriving DecidableEq, Repr

namespace JobState

/-- The position of a state in the enum, which is what SQL compares. -/
def rank : JobState → ℕ
  | created => 0
  | retry => 1
  | active => 2
  | completed => 3
  | cancelled => 4
  | failed => 5

instance : LT JobState := ⟨fun a b => a.rank < b.rank⟩
instance : LE JobState := ⟨fun a b => a.rank ≤ b.rank⟩
instance (a b : JobState) : Decidable (a < b) := inferInstanceAs (Decidable (a.rank < b.rank))
instance (a b : JobState) : Decidable (a ≤ b) := inferInstanceAs (Decidable (a.rank ≤ b.rank))

/-- `state < 'active'`: the job waits. -/
@[simp] theorem lt_active (s : JobState) : s < active ↔ s = created ∨ s = retry := by
  cases s <;> decide

/-- `state <= 'active'`: the job waits or runs. -/
@[simp] theorem le_active (s : JobState) : s ≤ active ↔ s = created ∨ s = retry ∨ s = active := by
  cases s <;> decide

/-- `state < 'completed'`: the job has not finished. -/
@[simp] theorem lt_completed (s : JobState) :
    s < completed ↔ s = created ∨ s = retry ∨ s = active := by
  cases s <;> decide

end JobState

/-- `QUEUE_POLICIES`. -/
inductive QueuePolicy
  | standard | short | singleton | stately | exclusive | keyStrictFifo
  deriving DecidableEq, Repr

/-- A row of the job table, with the defaults of `createTableJob`. -/
structure Job where
  id : Uuid
  name : String
  priority : Int := 0
  data : Option Json := none
  state : JobState := .created
  retryLimit : Int := 2
  retryCount : ℕ := 0
  retryDelay : Int := 0
  retryBackoff : Bool := false
  retryDelayMax : Option Int := none
  expireSeconds : Int := 900
  deletionSeconds : Int := 604800
  singletonKey : Option String := none
  singletonOn : Option Timestamp := none
  groupId : Option String := none
  groupTier : Option String := none
  startAfter : Timestamp
  createdOn : Timestamp
  startedOn : Option Timestamp := none
  completedOn : Option Timestamp := none
  keepUntil : Timestamp
  output : Option Json := none
  deadLetter : Option String := none
  policy : Option QueuePolicy := none
  heartbeatOn : Option Timestamp := none
  heartbeatSeconds : Option Int := none
  blocked : Bool := false
  blocking : Bool := false
  pendingDependencies : ℕ := 0
  sourceName : Option String := none
  sourceId : Option Uuid := none
  sourceCreatedOn : Option Timestamp := none
  sourceRetryCount : Option ℕ := none
  sourceOutput : Option Json := none
  sourceRootId : Option Uuid := none
  traceContext : Option Json := none
  upsertByKey : Bool := false
  deriving DecidableEq, Repr

/-- The primary key of a job. -/
abbrev JobKey := String × Uuid

/-- The primary key columns of a row. -/
def Job.jobKey (j : Job) : JobKey := (j.name, j.id)

/-- `COALESCE(singleton_key, '')`, the key the policy indexes see. -/
def Job.slotKey (j : Job) : String := j.singletonKey.getD ""

/-- The columns of a queue row that statements on its jobs read. -/
structure Queue where
  name : String
  policy : QueuePolicy
  retryLimit : Int
  retryDelay : Int
  retryBackoff : Bool
  retryDelayMax : Option Int
  expireSeconds : Int
  retentionSeconds : Int
  deletionSeconds : Int
  deadLetter : Option String
  heartbeatSeconds : Option Int
  tableName : String := "job_common"
  deriving DecidableEq, Repr

/-- A row of `job_dependency`: the child waits for the parent. -/
structure Dependency where
  child : JobKey
  parent : JobKey
  deriving DecidableEq, Repr

/-- The tables the statements read and write. -/
structure Database where
  jobs : List Job := []
  queues : List Queue := []
  dependencies : List Dependency := []
  deriving DecidableEq

/-- `PRIMARY KEY (name, id)`. -/
def primaryKey : UniqueIndex Job := .partialOn (fun _ => True) fun j => some j.jobKey

/-- `job_i1`: one created job per key of a `short` queue. -/
def jobI1 : UniqueIndex Job := .partialOn (fun j => j.state = .created ∧ j.policy = some .short)
  fun j => some (j.name, j.slotKey)

/-- `job_i2`: one active job per key of a `singleton` queue. -/
def jobI2 : UniqueIndex Job := .partialOn (fun j => j.state = .active ∧ j.policy = some .singleton)
  fun j => some (j.name, j.slotKey)

/-- `job_i3`: one job per key and state, up to active, of a `stately` queue. -/
def jobI3 : UniqueIndex Job := .partialOn (fun j => j.state ≤ .active ∧ j.policy = some .stately)
  fun j => some (j.name, j.state, j.slotKey)

/-- `job_i4`: one job, unless cancelled, per key and throttle slot. -/
def jobI4 : UniqueIndex Job := .partialOn (fun j => j.state ≠ .cancelled)
  fun j => j.singletonOn.map fun slot => (j.name, slot, j.slotKey)

/-- `job_i6`: one unfinished job per key of an `exclusive` queue. -/
def jobI6 : UniqueIndex Job := .partialOn (fun j => j.state ≤ .active ∧ j.policy = some .exclusive)
  fun j => some (j.name, j.slotKey)

/-- `job_i8`: one active, retrying or failed job per key of a `key_strict_fifo` queue. -/
def jobI8 : UniqueIndex Job :=
  .partialOn (fun j => (j.state = .active ∨ j.state = .retry ∨ j.state = .failed) ∧
      j.policy = some .keyStrictFifo)
    fun j => j.singletonKey.map fun key => (j.name, key)

/-- `job_i13`: one created job per key among those `upsert()` inserted by key. -/
def jobI13 : UniqueIndex Job := .partialOn (fun j => j.state = .created ∧ j.upsertByKey = true)
  fun j => j.singletonKey.map fun key => (j.name, key)

/-- The unique indexes of the job table. -/
def jobIndexes : List (UniqueIndex Job) :=
  [primaryKey, jobI1, jobI2, jobI3, jobI4, jobI6, jobI8, jobI13]

/-- `job_key_strict_fifo_singleton_key_check`. -/
def keyStrictFifoCheck (j : Job) : Bool :=
  !(decide (j.policy = some .keyStrictFifo) && j.singletonKey.isNone)

/-- A table state the primary key, the policy indexes and the key check allow. -/
structure Database.Allowed (db : Database) : Prop where
  consistent : Consistent jobIndexes db.jobs
  check : ∀ j ∈ db.jobs, keyStrictFifoCheck j = true

/-- The queue row of that name. -/
def Database.queue (db : Database) (name : String) : Option Queue := db.queues.find? (·.name = name)

/-- `dlq_fkey`: a dead letter queue that is named exists. -/
def Database.deadLetterExists (db : Database) (deadLetter : Option String) : Bool :=
  deadLetter.all fun name => (db.queue name).isSome

/-- `q_fkey` and `dlq_fkey` of a row. -/
def Database.references (db : Database) (j : Job) : Bool :=
  (db.queue j.name).isSome && db.deadLetterExists j.deadLetter

/-- The table that holds the jobs of a queue. -/
def Database.table (db : Database) (name : String) : Option String :=
  (db.queue name).map Queue.tableName

/-- What a statement raises. -/
inductive SqlError
  | uniqueViolation
  | checkViolation
  | foreignKeyViolation
  | divisionByZero
  deriving DecidableEq, Repr

/-- A row found under a name carries it. -/
theorem Database.queue_name {db : Database} {name : String} {q : Queue} (h : db.queue name = some q) :
    q.name = name := by
  simpa using List.find?_some h

theorem Database.queue_mem {db : Database} {name : String} {q : Queue} (h : db.queue name = some q) :
    q ∈ db.queues := List.mem_of_find?_eq_some h

section Clash

variable {a b : Job}

theorem primaryKey_clash : primaryKey.clash a b = true ↔ a.jobKey = b.jobKey := by
  simp [primaryKey, UniqueIndex.partialOn_clash]

theorem jobI1_clash : jobI1.clash a b = true ↔
    (a.state = .created ∧ a.policy = some .short) ∧ (b.state = .created ∧ b.policy = some .short) ∧
      a.name = b.name ∧ a.slotKey = b.slotKey := by
  rw [jobI1, UniqueIndex.partialOn_clash]; grind

theorem jobI2_clash : jobI2.clash a b = true ↔
    (a.state = .active ∧ a.policy = some .singleton) ∧ (b.state = .active ∧ b.policy = some .singleton) ∧
      a.name = b.name ∧ a.slotKey = b.slotKey := by
  rw [jobI2, UniqueIndex.partialOn_clash]; grind

theorem jobI3_clash : jobI3.clash a b = true ↔
    (a.state ≤ .active ∧ a.policy = some .stately) ∧ (b.state ≤ .active ∧ b.policy = some .stately) ∧
      a.name = b.name ∧ a.state = b.state ∧ a.slotKey = b.slotKey := by
  rw [jobI3, UniqueIndex.partialOn_clash]; grind

theorem jobI4_clash : jobI4.clash a b = true ↔
    a.state ≠ .cancelled ∧ b.state ≠ .cancelled ∧ a.singletonOn.isSome ∧
      a.singletonOn = b.singletonOn ∧ a.name = b.name ∧ a.slotKey = b.slotKey := by
  rw [jobI4, UniqueIndex.partialOn_clash]
  cases a.singletonOn <;> cases b.singletonOn <;> grind

theorem jobI6_clash : jobI6.clash a b = true ↔
    (a.state ≤ .active ∧ a.policy = some .exclusive) ∧ (b.state ≤ .active ∧ b.policy = some .exclusive) ∧
      a.name = b.name ∧ a.slotKey = b.slotKey := by
  rw [jobI6, UniqueIndex.partialOn_clash]; grind

theorem jobI8_clash : jobI8.clash a b = true ↔
    ((a.state = .active ∨ a.state = .retry ∨ a.state = .failed) ∧ a.policy = some .keyStrictFifo) ∧
      ((b.state = .active ∨ b.state = .retry ∨ b.state = .failed) ∧ b.policy = some .keyStrictFifo) ∧
      a.name = b.name ∧ a.singletonKey.isSome ∧ a.singletonKey = b.singletonKey := by
  rw [jobI8, UniqueIndex.partialOn_clash]
  cases a.singletonKey <;> cases b.singletonKey <;> grind

theorem jobI13_clash : jobI13.clash a b = true ↔
    (a.state = .created ∧ a.upsertByKey = true) ∧ (b.state = .created ∧ b.upsertByKey = true) ∧
      a.name = b.name ∧ a.singletonKey.isSome ∧ a.singletonKey = b.singletonKey := by
  rw [jobI13, UniqueIndex.partialOn_clash]
  cases a.singletonKey <;> cases b.singletonKey <;> grind

/-- The ways two job rows can clash, one for each index. -/
theorem jobs_clash_iff : clashes jobIndexes a b = true ↔
    primaryKey.clash a b = true ∨ jobI1.clash a b = true ∨ jobI2.clash a b = true ∨
      jobI3.clash a b = true ∨ jobI4.clash a b = true ∨ jobI6.clash a b = true ∨
      jobI8.clash a b = true ∨ jobI13.clash a b = true := by
  simp [clashes, jobIndexes]

theorem clashes_of_jobKey (h : a.jobKey = b.jobKey) : clashes jobIndexes a b = true :=
  jobs_clash_iff.mpr (.inl (primaryKey_clash.mpr h))

@[simp] theorem clashes_self (j : Job) : clashes jobIndexes j j = true := clashes_of_jobKey rfl

/-- Clashing rows belong to one queue. -/
theorem name_eq_of_clashes (h : clashes jobIndexes a b = true) : a.name = b.name := by
  rcases jobs_clash_iff.mp h with h | h | h | h | h | h | h | h
  · exact congrArg Prod.fst (primaryKey_clash.mp h)
  · exact (jobI1_clash.mp h).2.2.1
  · exact (jobI2_clash.mp h).2.2.1
  · exact (jobI3_clash.mp h).2.2.1
  · exact (jobI4_clash.mp h).2.2.2.2.1
  · exact (jobI6_clash.mp h).2.2.1
  · exact (jobI8_clash.mp h).2.2.1
  · exact (jobI13_clash.mp h).2.2.1

end Clash

section Allowed

variable {db : Database}

/-- The primary key: equal keys mean the same row. -/
theorem Database.Allowed.eq_of_jobKey (h : db.Allowed) {a b : Job} (ha : a ∈ db.jobs) (hb : b ∈ db.jobs)
    (hkey : a.jobKey = b.jobKey) : a = b := h.consistent.eq_of_clashes ha hb (clashes_of_jobKey hkey)

/-- A job of a `key_strict_fifo` queue has a singleton key. -/
theorem Database.Allowed.singletonKey_isSome (h : db.Allowed) {j : Job} (hj : j ∈ db.jobs)
    (hpolicy : j.policy = some .keyStrictFifo) : j.singletonKey.isSome = true := by
  have hcheck := h.check j hj
  cases hkey : j.singletonKey with
  | none => simp [keyStrictFifoCheck, hpolicy, hkey] at hcheck
  | some key => rfl

end Allowed

end PgBoss
