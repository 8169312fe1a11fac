import PgBoss.Plans.Settle

/-!
# The statements that put jobs and queues in

`insertJobs`, which `send()`, `insert()`, `upsert()` and the cron pass share, `insertFlowJobs`
and `insertDependencies`, `createQueue` and `updateQueue`. A row the payload leaves open is
filled from its queue as it is configured now, and from the schema's defaults without one; a
job of a missing queue is then refused by its foreign key.
-/

namespace PgBoss

open Relational

/-- `QUEUE_DEFAULTS`. -/
def queueDefaults : Queue where
  name := ""
  policy := .standard
  retryLimit := 2
  retryDelay := 0
  retryBackoff := false
  retryDelayMax := none
  expireSeconds := 900
  retentionSeconds := 1209600
  deletionSeconds := 604800
  deadLetter := none
  heartbeatSeconds := none

/-- A row of the recordset `insertJobs` reads. -/
structure JobInsert where
  id : Option Uuid := none
  priority : Option Int := none
  data : Option Json := none
  startAfter : StartAfter := .after 0
  retryLimit : Option Int := none
  retryDelay : Option Int := none
  retryDelayMax : Option Int := none
  retryBackoff : Option Bool := none
  singletonKey : Option String := none
  singletonSeconds : Option Int := none
  singletonOffset : Option Int := none
  singletonSlot : Option Timestamp := none
  groupId : Option String := none
  groupTier : Option String := none
  expireInSeconds : Option Int := none
  deleteAfterSeconds : Option Int := none
  retentionSeconds : Option Int := none
  deadLetter : Option String := none
  heartbeatSeconds : Option Int := none
  blocked : Option Bool := none
  blocking : Option Bool := none
  pendingDependencies : Option ℕ := none
  traceContext : Option Json := none
  deriving DecidableEq, Repr

/-- The throttle slot: the one named, else the start of the interval of `singletonSeconds` that
`job_now()` plus the offset is in. -/
def throttleSlot (now : Timestamp) (x : JobInsert) : Option Timestamp :=
  match x.singletonSlot, x.singletonSeconds with
  | some slot, _ => some slot
  | none, some s => some (seconds (s * ((now + seconds (x.singletonOffset.getD 0)) / seconds s)))
  | none, none => none

/-- The row `insertJobs` selects for a payload row. `drawn` is its `gen_random_uuid()`. -/
def insertRow (now : Timestamp) (name : String) (q : Option Queue) (upsertByKey : Bool) (drawn : Uuid)
    (x : JobInsert) : Job where
  id := x.id.getD drawn
  name := name
  data := x.data
  priority := x.priority.getD 0
  startAfter := x.startAfter.resolve now
  createdOn := now
  singletonKey := x.singletonKey
  singletonOn := throttleSlot now x
  groupId := x.groupId
  groupTier := x.groupTier
  expireSeconds := x.expireInSeconds.getD (q.getD queueDefaults).expireSeconds
  deletionSeconds := x.deleteAfterSeconds.getD (q.getD queueDefaults).deletionSeconds
  keepUntil := x.startAfter.resolve now + seconds (x.retentionSeconds.getD (q.getD queueDefaults).retentionSeconds)
  retryLimit := x.retryLimit.getD (q.getD queueDefaults).retryLimit
  retryDelay := x.retryDelay.getD (q.getD queueDefaults).retryDelay
  retryBackoff := x.retryBackoff.getD (q.getD queueDefaults).retryBackoff
  retryDelayMax := x.retryDelayMax.or (q.bind Queue.retryDelayMax)
  policy := q.map Queue.policy
  deadLetter := x.deadLetter.or (q.bind Queue.deadLetter)
  heartbeatSeconds := x.heartbeatSeconds.or (q.bind Queue.heartbeatSeconds)
  blocked := x.blocked.getD false
  blocking := x.blocking.getD false
  pendingDependencies := x.pendingDependencies.getD 0
  traceContext := x.traceContext
  upsertByKey := upsertByKey

/-- `insertJobs`. Refused rows are skipped; a row that breaks the key check or names a missing
queue raises. -/
def insertJobs (now : Timestamp) (name : String) (upsertByKey : Bool) (payload : List (JobInsert × Uuid))
    (db : Database) : Reply (List Job) :=
  let rows := payload.map fun (x, drawn) => insertRow now name (db.queue name) upsertByKey drawn x
  if rows.any fun j => !keyStrictFifoCheck j then .error .checkViolation
  else
    let out := insertOrSkip jobIndexes db.jobs rows
    if out.2.any fun j => !db.references j then .error .foreignKeyViolation
    else .ok ({ db with jobs := out.1 }, out.2)

/-- `insertFlowJobs`: a skipped row raises. -/
def insertFlowJobs (now : Timestamp) (name : String) (payload : List (JobInsert × Uuid)) (db : Database) :
    Reply (List Job) :=
  match insertJobs now name false payload db with
  | .error e => .error e
  | .ok (db', inserted) =>
    if inserted.length = payload.length then .ok (db', inserted) else .error .divisionByZero

/-- `insertDependencies`. -/
def insertDependencies (deps : List Dependency) (db : Database) : Database :=
  { db with dependencies := db.dependencies ++ (deps.filter fun d => decide (d ∉ db.dependencies)).dedup }

/-- The constraints on the `dead_letter` of a queue: another queue, which exists. -/
def Database.queueCheck (db : Database) (q : Queue) : Except SqlError Unit :=
  if q.deadLetter = some q.name then .error .checkViolation
  else if db.deadLetterExists q.deadLetter then .ok () else .error .foreignKeyViolation

/-- `createQueue`: a queue of that name is left as it is. -/
def createQueue (q : Queue) (db : Database) : Except SqlError Database :=
  if (db.queue q.name).isSome then .ok db
  else (db.queueCheck q).map fun _ => { db with queues := db.queues ++ [q] }

/-- The options of `updateQueue`. A nested option tells null from absent. -/
structure QueueUpdate where
  retryLimit : Option Int := none
  retryDelay : Option Int := none
  retryBackoff : Option Bool := none
  retryDelayMax : Option (Option Int) := none
  expireSeconds : Option Int := none
  retentionSeconds : Option Int := none
  deletionSeconds : Option Int := none
  heartbeatSeconds : Option (Option Int) := none
  deadLetter : Option (Option String) := none
  deriving DecidableEq, Repr

/-- The columns `updateQueue` sets. -/
def updateQueueSet (o : QueueUpdate) (q : Queue) : Queue :=
  { q with
    retryLimit := o.retryLimit.getD q.retryLimit
    retryDelay := o.retryDelay.getD q.retryDelay
    retryBackoff := o.retryBackoff.getD q.retryBackoff
    retryDelayMax := o.retryDelayMax.getD q.retryDelayMax
    expireSeconds := o.expireSeconds.getD q.expireSeconds
    retentionSeconds := o.retentionSeconds.getD q.retentionSeconds
    deletionSeconds := o.deletionSeconds.getD q.deletionSeconds
    heartbeatSeconds := o.heartbeatSeconds.getD q.heartbeatSeconds
    deadLetter := o.deadLetter.getD q.deadLetter }

/-- `updateQueue`. -/
def updateQueue (name : String) (o : QueueUpdate) (db : Database) : Except SqlError Database :=
  match db.queue name with
  | none => .ok db
  | some q => (db.queueCheck (updateQueueSet o q)).map fun _ =>
    { db with queues := db.queues.map fun q => if q.name = name then updateQueueSet o q else q }

section Inserted

variable {db db' : Database} {now : Timestamp} {name : String} {upsertByKey : Bool}
  {payload : List (JobInsert × Uuid)} {inserted : List Job}

/-- What an insert adds: rows made from its payload, for a queue that exists. -/
theorem insertJobs_ok (h : insertJobs now name upsertByKey payload db = .ok (db', inserted)) :
    db'.jobs = db.jobs ++ inserted ∧ db'.queues = db.queues ∧ db'.dependencies = db.dependencies ∧
      (db.Allowed → db'.Allowed) ∧
      ∀ r ∈ inserted, ∃ q x drawn, db.queue name = some q ∧ (x, drawn) ∈ payload ∧
        r = insertRow now name (some q) upsertByKey drawn x := by
  simp only [insertJobs] at h
  split at h
  · contradiction
  rename_i hcheck
  split at h
  · contradiction
  rename_i hrefs
  simp only [Except.ok.injEq, Prod.mk.injEq] at h
  obtain ⟨rfl, rfl⟩ := h
  simp only [List.any_eq_true, Bool.not_eq_true', not_exists, not_and, Bool.not_eq_false] at hcheck hrefs
  have hpayload : ∀ r ∈ (insertOrSkip jobIndexes db.jobs (payload.map fun (x, drawn) =>
      insertRow now name (db.queue name) upsertByKey drawn x)).2,
      ∃ x drawn, (x, drawn) ∈ payload ∧ r = insertRow now name (db.queue name) upsertByKey drawn x := by
    intro r hr
    obtain ⟨⟨x, drawn⟩, hx, rfl⟩ := List.mem_map.mp ((insertOrSkip_sublist _ _).mem hr)
    exact ⟨x, drawn, hx, rfl⟩
  refine ⟨insertOrSkip_rows _ _, rfl, rfl, fun hdb => ⟨insertOrSkip_consistent hdb.consistent _, fun j hj => ?_⟩,
    fun r hr => ?_⟩
  · rw [insertOrSkip_rows] at hj
    rcases List.mem_append.mp hj with hj | hj
    · exact hdb.check j hj
    · exact hcheck j ((insertOrSkip_sublist _ _).mem hj)
  · obtain ⟨x, drawn, hx, rfl⟩ := hpayload r hr
    have href := hrefs _ hr
    rw [Database.references, Bool.and_eq_true, Option.isSome_iff_exists] at href
    obtain ⟨q, hq⟩ := href.1
    have hq : db.queue name = some q := hq
    exact ⟨q, x, drawn, hq, hx, by rw [hq]⟩

/-- The rows an insert adds are some of those it offers, in order. -/
theorem insertJobs_sublist (h : insertJobs now name upsertByKey payload db = .ok (db', inserted)) :
    inserted.Sublist (payload.map fun (x, drawn) => insertRow now name (db.queue name) upsertByKey drawn x) := by
  simp only [insertJobs] at h
  split at h
  · contradiction
  split at h
  · contradiction
  obtain ⟨-, rfl⟩ := Prod.mk.inj (Except.ok.inj h)
  exact insertOrSkip_sublist _ _

/-- What `createQueue` leaves. -/
theorem createQueue_ok {q : Queue} (h : createQueue q db = .ok db') :
    db'.jobs = db.jobs ∧ db'.dependencies = db.dependencies ∧
      db'.queues = (if (db.queue q.name).isSome then db.queues else db.queues ++ [q]) := by
  rw [createQueue] at h
  split at h
  · obtain rfl := Except.ok.inj h
    rw [if_pos (by assumption)]
    exact ⟨rfl, rfl, rfl⟩
  · rw [if_neg (by assumption)]
    cases hcheck : db.queueCheck q with
    | error e => simp [hcheck, Except.map] at h
    | ok _ =>
      obtain rfl : _ = db' := by simpa [hcheck, Except.map] using h
      exact ⟨rfl, rfl, rfl⟩

/-- What `updateQueue` leaves. -/
theorem updateQueue_ok {o : QueueUpdate} (h : updateQueue name o db = .ok db') :
    db'.jobs = db.jobs ∧ db'.dependencies = db.dependencies ∧
      ∀ n, db'.queue n = (db.queue n).map fun q => if q.name = name then updateQueueSet o q else q := by
  rw [updateQueue] at h
  split at h
  · rename_i hnone
    obtain rfl := Except.ok.inj h
    refine ⟨rfl, rfl, fun n => ?_⟩
    cases hq : db.queue n with
    | none => rfl
    | some q =>
      have hne : q.name ≠ name := fun heq => by simp [← heq, Database.queue_name hq, hq] at hnone
      simp [hne]
  · rename_i q hq
    cases hcheck : db.queueCheck (updateQueueSet o q) with
    | error e => simp [hcheck, Except.map] at h
    | ok _ =>
      obtain rfl : _ = db' := by simpa [hcheck, Except.map] using h
      refine ⟨rfl, rfl, fun n => ?_⟩
      have hsame : ∀ k : Queue, (if k.name = name then updateQueueSet o k else k).name = k.name := fun k => by
        split <;> rfl
      rw [Database.queue, Database.queue, List.find?_map]
      simp only [Function.comp_def, hsame]

end Inserted

end PgBoss
