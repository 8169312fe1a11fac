import PgBoss.Schema

/-!
# The statements that move jobs in place

`completeJobs`, `cancelJobs`, `touchJobs`, `deleteJobsById`, `resumeJobs`, `restoreJobs`,
`retryJobs` and `updateJob`. Each is one UPDATE or DELETE over the job table, atomic as READ
COMMITTED makes it: the predicate is checked again on the locked row. `now` is the
statement's `job_now()`.
-/

namespace PgBoss

open Relational

/-- A claim as a worker names it: the job and the retry count it was fetched with. -/
structure JobAttempt where
  id : Uuid
  retryCount : ℕ
  deriving DecidableEq, Repr

/-- The attempt a row is at. -/
def Job.attempt (j : Job) : JobAttempt := ⟨j.id, j.retryCount⟩

/-- What a statement returns, or the error it raises. -/
abbrev Reply (α : Type) := Except SqlError (Database × α)

/-- A statement whose answer is dropped. -/
theorem map_fst_ok {α : Type} {r : Reply α} {db' : Database} (h : r.map Prod.fst = .ok db') :
    ∃ a, r = .ok (db', a) := by
  cases r with
  | error e => simp [Except.map] at h
  | ok out =>
    obtain rfl : out.1 = db' := by simpa [Except.map] using h
    exact ⟨out.2, rfl⟩

/-- `UPDATE ... SET ... WHERE ... RETURNING id`. -/
def Database.updateWhere (db : Database) (select : Job → Bool) (set : Job → Job) : Reply (List Uuid) :=
  match updateRows jobIndexes (fun j => if select j then some (set j) else none) db.jobs with
  | none => .error .uniqueViolation
  | some jobs => .ok ({ db with jobs }, (db.jobs.filter select).map Job.id)

/-- `DELETE ... WHERE ... RETURNING id`. -/
def Database.deleteWhere (db : Database) (select : Job → Bool) : Reply (List Uuid) :=
  .ok ({ db with jobs := db.jobs.filter fun j => !select j }, (db.jobs.filter select).map Job.id)

section Update

variable {db db' : Database} {select : Job → Bool} {set : Job → Job} {ids : List Uuid}

/-- An update sets the rows it selects and touches nothing but jobs. -/
theorem Database.updateWhere_ok (h : db.updateWhere select set = .ok (db', ids)) :
    db'.jobs = db.jobs.map (fun j => if select j then set j else j) ∧ db'.queues = db.queues ∧
      db'.dependencies = db.dependencies ∧ ids = (db.jobs.filter select).map Job.id := by
  simp only [Database.updateWhere] at h
  split at h
  · contradiction
  · rename_i jobs hjobs
    simp only [Except.ok.injEq, Prod.mk.injEq] at h
    obtain ⟨rfl, rfl⟩ := h
    refine ⟨?_, rfl, rfl, rfl⟩
    rw [updateRows_eq_some hjobs]
    exact List.map_congr_left fun j _ => by split <;> simp_all

/-- Where a row of the table after an update comes from. -/
theorem Database.updateWhere_mem (h : db.updateWhere select set = .ok (db', ids)) {r : Job} :
    r ∈ db'.jobs ↔ (r ∈ db.jobs ∧ select r = false) ∨ ∃ j ∈ db.jobs, select j = true ∧ r = set j := by
  rw [(updateWhere_ok h).1, List.mem_map]
  constructor
  · rintro ⟨j, hj, rfl⟩
    by_cases hs : select j = true
    · exact .inr ⟨j, hj, hs, by simp [hs]⟩
    · exact .inl ⟨by simp [hs, hj], by simp [hs]⟩
  · rintro (⟨hr, hs⟩ | ⟨j, hj, hs, rfl⟩)
    · exact ⟨r, hr, by simp [hs]⟩
    · exact ⟨j, hj, by simp [hs]⟩

/-- An update is decided by which rows of the table it selects. -/
theorem Database.updateWhere_congr {select' : Job → Bool} (set : Job → Job)
    (h : ∀ j ∈ db.jobs, select j = select' j) : db.updateWhere select set = db.updateWhere select' set := by
  simp only [Database.updateWhere, updateRows, List.filter_congr h]
  rw [updateScan_congr fun j hj => by rw [h j hj]]

/-- An update that leaves policy and key alone keeps the constraints. -/
theorem Database.updateWhere_allowed (set : Job → Job) (hdb : db.Allowed)
    (hset : ∀ j, (set j).policy = j.policy ∧ (set j).singletonKey = j.singletonKey)
    (h : db.updateWhere select set = .ok (db', ids)) : db'.Allowed := by
  refine ⟨?_, fun r hr => ?_⟩
  · simp only [Database.updateWhere] at h
    split at h
    · contradiction
    · rename_i jobs hjobs
      obtain ⟨rfl, rfl⟩ := Prod.mk.inj (Except.ok.inj h)
      exact updateRows_consistent hdb.consistent hjobs
  · rcases (updateWhere_mem h).mp hr with ⟨hr, -⟩ | ⟨j, hj, -, rfl⟩
    · exact hdb.check r hr
    · have hcheck := hdb.check j hj
      rw [keyStrictFifoCheck] at hcheck ⊢
      rwa [(hset j).1, (hset j).2]

/-- An update raises nothing when no row it sets clashes with another row, old or new. -/
theorem Database.updateWhere_total (set : Job → Job)
    (hold : ∀ a ∈ db.jobs, select a = true → ∀ b ∈ db.jobs, b ≠ a → clashes jobIndexes (set a) b = false)
    (hnew : ∀ a ∈ db.jobs, select a = true → ∀ b ∈ db.jobs, select b = true → b ≠ a →
      clashes jobIndexes (set a) (set b) = false) (hnodup : db.jobs.Nodup) :
    ∃ db' ids, db.updateWhere select set = .ok (db', ids) := by
  have hscan : updateScan jobIndexes (fun j => if select j then some (set j) else none) [] db.jobs = some _ :=
    updateScan_of_free _ _ _ (fun _ _ _ _ => rfl) (hnodup.imp_of_mem fun {a b} ha hb hab => ⟨fun a' ha' => ?_, fun b' hb' => ?_⟩)
  · rw [Database.updateWhere, updateRows, hscan]
    exact ⟨_, _, rfl⟩
  · obtain ⟨hs, ha'⟩ := Option.ite_none_right_eq_some.mp ha'
    obtain rfl := Option.some.inj ha'
    exact hold a ha hs b hb hab.symm
  · obtain ⟨hs, hb'⟩ := Option.ite_none_right_eq_some.mp hb'
    obtain rfl := Option.some.inj hb'
    by_cases hsa : select a = true
    · simpa [hsa] using hnew b hb hs a ha hsa hab
    · simpa [hsa] using hold b hb hs a ha hab

end Update

/-- The fence: the row is active at one of the attempts the caller fetched. -/
def attemptFence (attempts : List JobAttempt) (j : Job) : Bool :=
  decide (j.state = .active) && decide (j.attempt ∈ attempts)

/-- An unfenced call passes every row. -/
def fence (attempts : Option (List JobAttempt)) (j : Job) : Bool :=
  match attempts with
  | none => true
  | some attempts => attemptFence attempts j

/-- `WHERE name = $1 AND id = ANY($2)`. -/
def named (name : String) (ids : List Uuid) (j : Job) : Bool :=
  decide (j.name = name) && decide (j.id ∈ ids)

/-- The rows `completeJobsUpdate` selects. -/
def completeSelects (name : String) (ids : List Uuid) (includeQueued : Bool)
    (attempts : Option (List JobAttempt)) (j : Job) : Bool :=
  named name ids j && (if includeQueued then decide (j.state < .completed) else decide (j.state = .active)) &&
    fence attempts j

/-- The columns `completeJobsUpdate` sets. -/
def completeSet (now : Timestamp) (output : Option Json) (includeQueued : Bool) (j : Job) : Job :=
  { j with
    completedOn := some now
    state := .completed
    output := output
    blocked := if includeQueued then false else j.blocked
    pendingDependencies := if includeQueued then 0 else j.pendingDependencies }

/-- `completeJobs`, and `completeJobsDistributed`, which is the same update without the count. -/
def completeJobs (now : Timestamp) (name : String) (ids : List Uuid) (output : Option Json)
    (includeQueued : Bool) (attempts : Option (List JobAttempt)) (db : Database) : Reply (List Uuid) :=
  db.updateWhere (completeSelects name ids includeQueued attempts) (completeSet now output includeQueued)

/-- `toJsonText`, and how a JSON null is bound and comes out of a record set: it is the null of SQL. -/
def toJsonText (value : Option Json) : Option Json := value.filter fun text => decide (text ≠ "null")

theorem toJsonText_ne_null (value : Option Json) : toJsonText value ≠ some "null" := by
  simp [toJsonText, Option.filter_eq_some_iff]

/-- A value that is not a JSON null is bound as it is. -/
theorem toJsonText_eq {value : Option Json} (h : value ≠ some "null") : toJsonText value = value := by
  cases value with
  | none => rfl
  | some text => simpa [toJsonText, Option.filter_some] using fun heq : text = "null" => h (congrArg some heq)

/-- The output a per-job settle carries for a row: that of the first item at the row's attempt. -/
def outputFor (items : List (JobAttempt × Option Json)) (j : Job) : Option Json :=
  toJsonText (((items.find? fun item => item.1 = j.attempt).map Prod.snd).getD none)

/-- `completeJobsWithOutputs`, fenced by the retry count each item carries. -/
def completeJobsWithOutputs (now : Timestamp) (name : String) (items : List (JobAttempt × Option Json))
    (db : Database) : Reply (List Uuid) :=
  db.updateWhere (fun j => decide (j.name = name) && attemptFence (items.map Prod.fst) j)
    fun j => { j with completedOn := some now, state := .completed, output := outputFor items j }

/-- The rows `cancelJobs` selects. -/
def cancelSelects (name : String) (ids : List Uuid) (attempts : Option (List JobAttempt)) (j : Job) : Bool :=
  named name ids j && decide (j.state < .completed) && fence attempts j

/-- The columns `cancelJobs` sets. -/
def cancelSet (now : Timestamp) (j : Job) : Job := { j with completedOn := some now, state := .cancelled }

/-- `cancelJobs`. -/
def cancelJobs (now : Timestamp) (name : String) (ids : List Uuid)
    (attempts : Option (List JobAttempt)) (db : Database) : Reply (List Uuid) :=
  db.updateWhere (cancelSelects name ids attempts) (cancelSet now)

/-- The rows `touchJobs` selects. -/
def touchSelects (name : String) (ids : List Uuid) (attempts : Option (List JobAttempt)) (j : Job) : Bool :=
  named name ids j && decide (j.state = .active) && fence attempts j

/-- The column `touchJobs` sets. -/
def touchSet (now : Timestamp) (j : Job) : Job := { j with heartbeatOn := some now }

/-- `touchJobs`. -/
def touchJobs (now : Timestamp) (name : String) (ids : List Uuid)
    (attempts : Option (List JobAttempt)) (db : Database) : Reply (List Uuid) :=
  db.updateWhere (touchSelects name ids attempts) (touchSet now)

/-- `deleteJobsById`. -/
def deleteJobsById (name : String) (ids : List Uuid) (attempts : Option (List JobAttempt))
    (db : Database) : Reply (List Uuid) :=
  db.deleteWhere fun j => named name ids j && fence attempts j

/-- The columns `resumeJobs` sets. -/
def resumeSet (now : Timestamp) (j : Job) : Job :=
  { j with completedOn := none, state := .created, upsertByKey := false, startAfter := max j.startAfter now }

/-- `resumeJobs`. -/
def resumeJobs (now : Timestamp) (name : String) (ids : List Uuid) (db : Database) : Reply (List Uuid) :=
  db.updateWhere (fun j => named name ids j && decide (j.state = .cancelled)) (resumeSet now)

/-- The columns `restoreJobs` sets. -/
def restoreSet (j : Job) : Job :=
  { j with state := .created, startedOn := none, heartbeatOn := none, upsertByKey := false }

/-- `restoreJobs`: by name and id alone, whatever state the row is in. -/
def restoreJobs (name : String) (ids : List Uuid) (db : Database) : Reply (List Uuid) :=
  db.updateWhere (named name ids) restoreSet

/-- The columns `retryJobs` sets. -/
def retrySet (now : Timestamp) (j : Job) : Job :=
  { j with
    state := .retry
    retryLimit := j.retryLimit + 1
    completedOn := none
    startAfter := max j.startAfter now }

/-- `retryJobs`. -/
def retryJobs (now : Timestamp) (name : String) (ids : List Uuid) (db : Database) : Reply (List Uuid) :=
  db.updateWhere (fun j => named name ids j && decide (j.state = .failed)) (retrySet now)

/-- A `startAfter` value: an instant, or a delay from `job_now()`. -/
inductive StartAfter
  | at (instant : Timestamp)
  | after (delay : Int)
  deriving DecidableEq, Repr

/-- The instant a `startAfter` value resolves to. -/
def StartAfter.resolve (now : Timestamp) : StartAfter → Timestamp
  | .at instant => instant
  | .after delay => now + delay

/-- `JOB_MATCH_STRATEGIES`, and the target by id. -/
inductive UpdateTarget
  | byId (id : Uuid)
  | newest (key : String)
  | oldest (key : String)
  | all (key : String)
  deriving DecidableEq, Repr

/-- The payload of `updateJob`: a column is left alone unless its field is present. A nested
option tells a field carrying null from an absent one. -/
structure UpdatePayload where
  data : Option Json := none
  priority : Option Int := none
  startAfter : Option StartAfter := none
  retentionSeconds : Option Int := none
  expireInSeconds : Option Int := none
  deleteAfterSeconds : Option Int := none
  retryLimit : Option Int := none
  retryDelay : Option Int := none
  retryBackoff : Option Bool := none
  retryDelayMax : Option (Option Int) := none
  deadLetter : Option (Option String) := none
  heartbeatSeconds : Option (Option Int) := none
  groupId : Option (Option String) := none
  groupTier : Option (Option String) := none
  deriving DecidableEq, Repr

/-- The columns `updateJob` sets. -/
def updateSet (now : Timestamp) (o : UpdatePayload) (j : Job) : Job :=
  let startAfter := (o.startAfter.map (StartAfter.resolve now)).getD j.startAfter
  { j with
    data := (o.data.map some).getD j.data
    priority := o.priority.getD j.priority
    startAfter := startAfter
    keepUntil :=
      match o.retentionSeconds, o.startAfter with
      | some retention, _ => startAfter + seconds retention
      | none, some _ => startAfter + (j.keepUntil - j.startAfter)
      | none, none => j.keepUntil
    expireSeconds := o.expireInSeconds.getD j.expireSeconds
    deletionSeconds := o.deleteAfterSeconds.getD j.deletionSeconds
    retryLimit := o.retryLimit.getD j.retryLimit
    retryDelay := o.retryDelay.getD j.retryDelay
    retryBackoff := o.retryBackoff.getD j.retryBackoff
    retryDelayMax := o.retryDelayMax.getD j.retryDelayMax
    deadLetter := o.deadLetter.getD j.deadLetter
    heartbeatSeconds := o.heartbeatSeconds.getD j.heartbeatSeconds
    groupId := o.groupId.getD j.groupId
    groupTier := o.groupTier.getD j.groupTier }

/-- Waiting jobs of the queue with that key. -/
def waitingWithKey (name key : String) (j : Job) : Bool :=
  decide (j.name = name) && decide (j.state < .active) && decide (j.singletonKey = some key)

/-- `ORDER BY created_on LIMIT 1`, by the given comparison: the first of the extreme rows. -/
def firstBy (before : Job → Job → Bool) : List Job → Option Job
  | [] => none
  | j :: rest =>
    match firstBy before rest with
    | none => some j
    | some k => if before k j then some k else some j

/-- The `target` CTE of `updateJob`. -/
def updateTargets (name : String) (db : Database) : UpdateTarget → List Uuid
  | .byId id => ((db.jobs.filter fun j => named name [id] j && decide (j.state < .active))).map Job.id
  | .newest key => ((firstBy (fun a b => decide (b.createdOn < a.createdOn))
      (db.jobs.filter (waitingWithKey name key))).map Job.id).toList
  | .oldest key => ((firstBy (fun a b => decide (a.createdOn < b.createdOn))
      (db.jobs.filter (waitingWithKey name key))).map Job.id).toList
  | .all key => (db.jobs.filter (waitingWithKey name key)).map Job.id

/-- The rows `updateJob` changes: any waiting row of the queue's table with a target's id. The
queue name is tested in the `target` CTE only, not here. -/
def updateSelects (name : String) (target : UpdateTarget) (db : Database) (j : Job) : Bool :=
  decide (db.table j.name = db.table name) && decide (j.id ∈ updateTargets name db target) &&
    decide (j.state < .active)

/-- `updateJob`. -/
def updateJob (now : Timestamp) (name : String) (target : UpdateTarget) (o : UpdatePayload)
    (db : Database) : Reply (List Uuid) :=
  if db.jobs.any fun j => updateSelects name target db j && !db.deadLetterExists (updateSet now o j).deadLetter then
    .error .foreignKeyViolation
  else db.updateWhere (updateSelects name target db) (updateSet now o)

end PgBoss
