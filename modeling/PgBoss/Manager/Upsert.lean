import PgBoss.Plans.Insert

/-!
# Upserts

`#upsert` by `singletonKey`: in one transaction `updateJob`, then `insertJobs` if it returned no
row, then `updateJob` once more if the insert was skipped. Other sessions run between these
statements, and inside an update too: its `target` CTE reads a snapshot, and the UPDATE waits
for the rows' locks. So an update is taken in two parts. A transaction writes in the last of its
statements that does anything, and its writes are dated at its commit: until then the rows are
locked, and an insert that conflicts with them waits.
-/

namespace PgBoss

open Relational

/-- `JOB_MATCH_STRATEGIES`. -/
inductive JobMatch
  | newest | oldest | all
  deriving DecidableEq, Repr

/-- The target of an update by `singletonKey`. -/
def JobMatch.target (key : String) : JobMatch → UpdateTarget
  | newest => .newest key
  | oldest => .oldest key
  | all => .all key

/-- Any number of calls of `upsert()` with one `singletonKey` on one queue. `checkUpdateArgs` turns
an empty key down, so `key_strict_fifo` queues take every one of them. -/
structure Upserts (ι : Type) where
  name : String
  singletonKey : String
  keyed : singletonKey ≠ ""
  strategy : ι → JobMatch
  payload : ι → UpdatePayload
  traceContext : ι → Option Json

/-- The payload as `insertJobs` reads it: `json_to_recordset` makes a null of a JSON null. -/
def UpdatePayload.toInsert (o : UpdatePayload) (singletonKey : String) (traceContext : Option Json) : JobInsert where
  priority := o.priority
  data := o.data.filter fun data => decide (data ≠ "null")
  startAfter := o.startAfter.getD (.after 0)
  retryLimit := o.retryLimit
  retryDelay := o.retryDelay
  retryDelayMax := o.retryDelayMax.join
  retryBackoff := o.retryBackoff
  singletonKey := some singletonKey
  groupId := o.groupId.join
  groupTier := o.groupTier.join
  expireInSeconds := o.expireInSeconds
  deleteAfterSeconds := o.deleteAfterSeconds
  retentionSeconds := o.retentionSeconds
  deadLetter := o.deadLetter.join
  heartbeatSeconds := o.heartbeatSeconds.join
  traceContext := traceContext

/-- The data of a job as it is handed back: a null column and a JSON null are the same. -/
def Job.payloadData (j : Job) : Json := j.data.getD "null"

/-- The rows the snapshot of `updateJob` offers to its UPDATE. -/
def updateChoice (name : String) (target : UpdateTarget) (db : Database) : List JobKey :=
  (db.jobs.filter (updateSelects name target db)).map Job.jobKey

/-- The rows the UPDATE sets once it holds their locks: the chosen ones which still wait. -/
def stillWaits (chosen : List JobKey) (j : Job) : Bool :=
  decide (j.jobKey ∈ chosen) && decide (j.state < .active)

/-- `updateJob` from where it has its rows. -/
def updateChosen (now : Timestamp) (o : UpdatePayload) (chosen : List JobKey) (db : Database) :
    Reply (List Uuid) :=
  if db.jobs.any fun j => stillWaits chosen j && !db.deadLetterExists (updateSet now o j).deadLetter then
    .error .foreignKeyViolation
  else db.updateWhere (stillWaits chosen) (updateSet now o)

/-- `UpsertResponse`. -/
structure UpsertResponse where
  jobs : List Uuid
  updated : ℕ
  inserted : ℕ
  deriving DecidableEq, Repr

/-- The job that refused an upsert's insert, and whether the upsert has found it active. -/
structure Refusal where
  job : JobKey
  active : Bool
  deriving DecidableEq, Repr

/-- The upsert looks at the job that refused it. -/
def Refusal.look (refusal : Refusal) (db : Database) : Refusal :=
  { refusal with
    active := refusal.active || db.jobs.any fun j => decide (j.jobKey = refusal.job) && decide (j.state = .active) }

/-- Where an upsert is: before an update, which is the second one when an insert was refused, inside
it with its rows chosen, before its insert, or at its end. -/
inductive UpsertPhase
  | update (refusal : Option Refusal)
  | updating (refusal : Option Refusal) (chosen : List JobKey)
  | insert
  | returned (response : UpsertResponse) (refusal : Option Refusal)
  | raised
  deriving DecidableEq, Repr

/-- After an update: `if (updated.length)`, else the insert; the second update is the last
statement. -/
def UpsertPhase.updated (refusal : Option Refusal) (jobs : List Uuid) : UpsertPhase :=
  if jobs = [] ∧ refusal = none then .insert
  else .returned { jobs, updated := jobs.length, inserted := 0 } refusal

/-- A row that is deleted and inserted again is no longer the one an update has chosen. -/
def UpsertPhase.forget (keys : List JobKey) : UpsertPhase → UpsertPhase
  | .updating refusal chosen => .updating refusal (chosen.filter fun key => decide (key ∉ keys))
  | phase => phase

/-- The upsert is not at its end, or has edited or inserted a job, or has found the job that refused
its insert active. -/
def UpsertPhase.Accounted : UpsertPhase → Prop
  | .returned response refusal => 0 < response.updated + response.inserted ∨ refusal.any Refusal.active = true
  | _ => True

section Update

variable {db db' : Database} {now : Timestamp} {name key : String} {target : UpdateTarget} {o : UpdatePayload}
  {chosen : List JobKey} {ids : List Uuid}

/-- An update that nothing comes between is `updateJob`. -/
theorem updateChosen_choice (hdb : db.Allowed) :
    updateChosen now o (updateChoice name target db) db = updateJob now name target o db := by
  have hsame : ∀ j ∈ db.jobs, stillWaits (updateChoice name target db) j = updateSelects name target db j := by
    intro j hj
    rw [Bool.eq_iff_iff, stillWaits, Bool.and_eq_true, decide_eq_true_eq, decide_eq_true_eq, updateChoice, List.mem_map]
    constructor
    · rintro ⟨⟨k, hk, hkey⟩, -⟩
      obtain ⟨hk, hselects⟩ := List.mem_filter.mp hk
      rwa [← hdb.eq_of_jobKey hk hj hkey]
    · intro hselects
      refine ⟨⟨j, List.mem_filter.mpr ⟨hj, hselects⟩, rfl⟩, ?_⟩
      simp only [updateSelects, Bool.and_eq_true, decide_eq_true_eq] at hselects
      exact hselects.2
  rw [updateChosen, updateJob, Database.updateWhere_congr _ hsame]
  have hany : (db.jobs.any fun j => stillWaits (updateChoice name target db) j &&
        !db.deadLetterExists (updateSet now o j).deadLetter) =
      db.jobs.any fun j => updateSelects name target db j && !db.deadLetterExists (updateSet now o j).deadLetter := by
    rw [Bool.eq_iff_iff, List.any_eq_true, List.any_eq_true]
    exact exists_congr fun j => and_congr_right fun hj => by rw [hsame j hj]
  rw [hany]

/-- An update sets the chosen rows which still wait, and returns their ids. -/
theorem updateChosen_ok (h : updateChosen now o chosen db = .ok (db', ids)) :
    db.updateWhere (stillWaits chosen) (updateSet now o) = .ok (db', ids) := by
  rw [updateChosen] at h
  split at h
  · contradiction
  · exact h

/-- The first row by any order is one of the rows. -/
theorem firstBy_mem {before : Job → Job → Bool} {jobs : List Job} {j : Job} (h : firstBy before jobs = some j) :
    j ∈ jobs := by
  induction jobs generalizing j with
  | nil => simp [firstBy] at h
  | cons head rest ih =>
    rw [firstBy] at h
    split at h
    · obtain rfl := Option.some.inj h
      exact List.mem_cons_self
    · rename_i k hk
      split at h
      · obtain rfl := Option.some.inj h
        exact List.mem_cons_of_mem _ (ih hk)
      · obtain rfl := Option.some.inj h
        exact List.mem_cons_self

/-- Of some rows there is a first one. -/
theorem firstBy_eq_none {before : Job → Job → Bool} {jobs : List Job} (h : firstBy before jobs = none) : jobs = [] := by
  cases jobs with
  | nil => rfl
  | cons head rest =>
    rw [firstBy] at h
    split at h
    · contradiction
    · split at h <;> contradiction

/-- Whichever strategy picks them, the targets of a key are waiting jobs of it, and there are some if
any job of the key waits. -/
theorem JobMatch.targets (strategy : JobMatch) (name key : String) (db : Database) :
    (∀ id ∈ updateTargets name db (strategy.target key), ∃ j ∈ db.jobs, waitingWithKey name key j = true ∧ j.id = id) ∧
      (updateTargets name db (strategy.target key) = [] → db.jobs.filter (waitingWithKey name key) = []) := by
  have hpicked (before : Job → Job → Bool) :
      (∀ id ∈ ((firstBy before (db.jobs.filter (waitingWithKey name key))).map Job.id).toList,
          ∃ j ∈ db.jobs, waitingWithKey name key j = true ∧ j.id = id) ∧
        (((firstBy before (db.jobs.filter (waitingWithKey name key))).map Job.id).toList = [] →
          db.jobs.filter (waitingWithKey name key) = []) := by
    refine ⟨fun id hid => ?_, fun hnone => firstBy_eq_none (by simpa using hnone)⟩
    obtain ⟨j, hj, rfl⟩ := Option.map_eq_some_iff.mp (Option.mem_toList.mp hid)
    obtain ⟨hj, hwaits⟩ := List.mem_filter.mp (firstBy_mem hj)
    exact ⟨j, hj, hwaits, rfl⟩
  cases strategy with
  | newest => exact hpicked _
  | oldest => exact hpicked _
  | all =>
    refine ⟨fun id hid => ?_, fun hnone => List.map_eq_nil_iff.mp hnone⟩
    obtain ⟨j, hj, rfl⟩ := List.mem_map.mp hid
    obtain ⟨hj, hwaits⟩ := List.mem_filter.mp hj
    exact ⟨j, hj, hwaits, rfl⟩

/-- An update by key finds rows to offer exactly when a job of the key waits. -/
theorem updateChoice_eq_nil_iff (strategy : JobMatch) :
    updateChoice name (strategy.target key) db = [] ↔ db.jobs.any (waitingWithKey name key) = false := by
  obtain ⟨htargets, hsome⟩ := strategy.targets name key db
  have hselects {j : Job} (hj : waitingWithKey name key j = true)
      (hid : j.id ∈ updateTargets name db (strategy.target key)) :
      updateSelects name (strategy.target key) db j = true := by
    simp only [waitingWithKey, Bool.and_eq_true, decide_eq_true_eq] at hj
    simp only [updateSelects, hj.1.1, hj.1.2, hid, decide_true, Bool.and_self]
  rw [updateChoice, List.map_eq_nil_iff, ← Bool.not_eq_true]
  constructor
  · intro hnone hany
    obtain ⟨k, hk, hkwaits⟩ := List.any_eq_true.mp hany
    obtain ⟨id, hid⟩ : ∃ id, id ∈ updateTargets name db (strategy.target key) := by
      refine List.exists_mem_of_ne_nil _ fun hempty => ?_
      exact List.filter_eq_nil_iff.mp (hsome hempty) k hk hkwaits
    obtain ⟨j, hj, hwaits, rfl⟩ := htargets id hid
    exact List.filter_eq_nil_iff.mp hnone j hj (hselects hwaits hid)
  · intro hnone
    refine List.filter_eq_nil_iff.mpr fun j hj hselect => hnone ?_
    simp only [updateSelects, Bool.and_eq_true, decide_eq_true_eq] at hselect
    obtain ⟨k, hk, hwaits, -⟩ := htargets _ hselect.1.2
    exact List.any_eq_true.mpr ⟨k, hk, hwaits⟩

end Update

end PgBoss
