import PgBoss.Plans.Settle

/-!
# The redrive statements

`redriveJobs` moves waiting jobs out of a dead letter queue: each is re-created on its source
queue, or on the destination given, with that queue's configuration. A job that is not
re-created, because the destination refused it, is failed where it is.

The insert runs first, while the dead letter rows are still there; the delete and the update
of the refused ones follow. On a backend that refuses a DELETE and an INSERT of one table in one
statement the same steps are statements of their own, which share their SQL with it.
-/

namespace PgBoss

open Relational

/-- The parameters of `redriveJobs`. `contains` is the jsonb containment test of the `data`
filter, `newId` the uuid drawn for a candidate. -/
structure RedriveOptions where
  deadLetter : String
  destination : Option String := none
  sourceName : Option String := none
  contains : Option Json → Bool := fun _ => true
  createdBefore : Option Timestamp := none
  ids : Option (List Uuid) := none
  limit : ℕ
  now : Timestamp
  newId : Job → Uuid

/-- A key held by an active, retrying or failed job of a strict FIFO queue. -/
def keyHolder (db : Database) (j : Job) : Bool :=
  decide (j.policy = some .keyStrictFifo) && db.jobs.any fun k => decide (k.name = j.name ∧
    k.singletonKey.isSome ∧ k.singletonKey = j.singletonKey ∧ k.policy = some .keyStrictFifo ∧
    (k.state = .active ∨ k.state = .retry ∨ k.state = .failed))

/-- `redriveWhere`. -/
def redriveWhere (o : RedriveOptions) (db : Database) (j : Job) : Bool :=
  decide (j.name = o.deadLetter) && decide (j.state < .active) && !keyHolder db j &&
    (o.sourceName.all fun name => decide (j.sourceName = some name)) && o.contains j.data &&
    (o.createdBefore.all fun t => decide (j.createdOn < t)) && (o.ids.all fun ids => decide (j.id ∈ ids))

/-- The queue a job is redriven to. -/
def redriveQueue (o : RedriveOptions) (db : Database) (j : Job) : Option Queue :=
  (o.destination.or j.sourceName).bind db.queue

/-- `ORDER BY created_on`. -/
def createdBefore (a b : Job) : Prop := a.createdOn ≤ b.createdOn

instance : DecidableRel createdBefore := fun a b => inferInstanceAs (Decidable (a.createdOn ≤ b.createdOn))

/-- The `candidates` CTE, less the rows `locked` by others. -/
def redriveCandidates (o : RedriveOptions) (locked : List JobKey) (db : Database) : List Job :=
  (((db.jobs.filter fun j => redriveWhere o db j && (redriveQueue o db j).isSome).insertionSort
    createdBefore).filter fun j => decide (j.jobKey ∉ locked)).take o.limit

/-- `redriveInsertValues`: the row a dead letter row `m` is re-created as on queue `q`. -/
def redriveRow (o : RedriveOptions) (m : Job) (q : Queue) : Job where
  id := o.newId m
  name := q.name
  data := m.data
  priority := m.priority
  retryLimit := q.retryLimit
  retryBackoff := q.retryBackoff
  retryDelay := q.retryDelay
  retryDelayMax := q.retryDelayMax
  expireSeconds := q.expireSeconds
  startAfter := o.now
  createdOn := o.now
  keepUntil := o.now + seconds q.retentionSeconds
  deletionSeconds := q.deletionSeconds
  policy := some q.policy
  singletonKey := m.singletonKey
  groupId := m.groupId
  groupTier := m.groupTier
  heartbeatSeconds := q.heartbeatSeconds
  deadLetter := q.deadLetter
  sourceRootId := m.sourceRootId.or m.sourceId
  traceContext := m.traceContext

/-- The row `redriveInsertValues` gives a candidate that was given the id, if it has a queue. -/
def redriveNew (o : RedriveOptions) (db : Database) (c : Job × Uuid) : Option Job :=
  (redriveQueue o db c.1).map fun q => { redriveRow o c.1 q with id := c.2 }

/-- `ON CONFLICT DO NOTHING RETURNING id`, row by row: the table, and the ids of the rows that were
inserted. -/
def redriveInsert (o : RedriveOptions) (db : Database) : List Job → List (Job × Uuid) → List Job × List Uuid
  | rows, [] => (rows, [])
  | rows, c :: rest =>
    match redriveNew o db c with
    | none => redriveInsert o db rows rest
    | some row =>
      if refused jobIndexes rows row then redriveInsert o db rows rest
      else
        let out := redriveInsert o db (rows ++ [row]) rest
        (out.1, c.2 :: out.2)

/-- The insert of either path, `ORDER BY m.created_on`. A row the key check refuses raises. -/
def redriveInserts (o : RedriveOptions) (db : Database) (candidates : List (Job × Uuid)) :
    Except SqlError (List Job × List Uuid) :=
  if candidates.any fun c => (redriveNew o db c).any fun row => !keyStrictFifoCheck row then .error .checkViolation
  else .ok (redriveInsert o db db.jobs (candidates.insertionSort fun a b => createdBefore a.1 b.1))

/-- The name of a policy in SQL. -/
def QueuePolicy.text : QueuePolicy → String
  | .standard => "standard"
  | .short => "short"
  | .singleton => "singleton"
  | .stately => "stately"
  | .exclusive => "exclusive"
  | .keyStrictFifo => "key_strict_fifo"

/-- The output of a job that could not be re-created on `q`. -/
def redriveConflictOutput (q : Queue) (j : Job) : Json :=
  let message := "Not redriven: queue " ++ q.name ++ (match j.singletonKey with
    | none => " already has a job this one conflicts with"
    | some key => " already has a job with singletonKey " ++ key) ++ " under its " ++ q.policy.text ++ " policy"
  "\x7b\"policy\": \"" ++ q.policy.text ++ "\", \"reason\": \"redrive_conflict\", \"message\": \"" ++ message ++
    "\", \"destination\": \"" ++ q.name ++ "\", \"singletonKey\": " ++
    (match j.singletonKey with
      | none => "null"
      | some key => "\"" ++ key ++ "\"") ++ "\x7d"

/-- `redriveConflictSet`. -/
def redriveConflictSet (o : RedriveOptions) (db : Database) (j : Job) : Job :=
  { j with
    state := .failed
    completedOn := some o.now
    sourceOutput := j.sourceOutput.or j.output
    output := (redriveQueue o db j).map fun q => redriveConflictOutput q j }

/-- `redriveConflictFailable`: of the refused rows of a strict FIFO key, the oldest. -/
def redriveConflictFailable (o : RedriveOptions) (conflicts : List Uuid) (db : Database) (j : Job) : Bool :=
  !decide (j.policy = some .keyStrictFifo) || j.singletonKey.isNone ||
    (db.jobs.all fun m => !named o.deadLetter conflicts m || !decide (m.policy = some .keyStrictFifo) ||
      !decide (m.singletonKey = j.singletonKey) ||
      decide (j.createdOn < m.createdOn ∨ j.createdOn = m.createdOn ∧ j.id ≤ m.id))

/-- The rows the update of the refused ones sets. -/
def redriveFails (o : RedriveOptions) (conflicts : List Uuid) (db : Database) (j : Job) : Bool :=
  named o.deadLetter conflicts j && (redriveQueue o db j).isSome && redriveConflictFailable o conflicts db j

/-- `failRedriveConflicts`, which is the `conflicted` CTE as well. -/
def failRedriveConflicts (o : RedriveOptions) (conflicts : List Uuid) (db : Database) : Reply (List Uuid) :=
  db.updateWhere (redriveFails o conflicts db) (redriveConflictSet o db)

/-- `redriveJobs`: the number of jobs moved. Which candidates were re-created is told by the ids the
insert returned. -/
def redriveJobs (o : RedriveOptions) (locked : List JobKey) (db : Database) : Reply ℕ :=
  let candidates := (redriveCandidates o locked db).map fun m => (m, o.newId m)
  match redriveInserts o db candidates with
  | .error e => .error e
  | .ok (rows, inserted) =>
    let moved := (candidates.filter fun c => decide (c.2 ∈ inserted)).map fun c => c.1.id
    let conflicts := (candidates.filter fun c => decide (c.2 ∉ inserted)).map fun c => c.1.id
    match failRedriveConflicts o conflicts { db with jobs := rows.filter fun j => !named o.deadLetter moved j } with
    | .error e => .error e
    | .ok (db', _) => .ok (db', inserted.length)

/-- `selectRedriveCandidates`: each candidate's id and the new id drawn for it. -/
def selectRedriveCandidates (o : RedriveOptions) (db : Database) : List (Uuid × Uuid) :=
  (redriveCandidates o [] db).map fun m => (m.id, o.newId m)

/-- `insertRedrivenJobs`: the arrays unnested in parallel and joined to the dead letter rows. -/
def insertRedrivenJobs (o : RedriveOptions) (ids newIds : List Uuid) (db : Database) : Reply (List Uuid) :=
  let candidates := (ids.zip newIds).filterMap fun p => (db.jobs.find? (named o.deadLetter [p.1])).map (·, p.2)
  match redriveInserts o db candidates with
  | .error e => .error e
  | .ok (jobs, inserted) => .ok ({ db with jobs }, inserted)

/-- `previewRedrive`: the destinations of at most `limit` jobs a redrive would move, then at most as
many it would leave, which have none. -/
def previewRedrive (o : RedriveOptions) (db : Database) : List (Option String) :=
  let destinations := (db.jobs.filter (redriveWhere o db)).map fun j => (redriveQueue o db j).map Queue.name
  (destinations.filter Option.isSome).take o.limit ++ (destinations.filter Option.isNone).take o.limit

end PgBoss
