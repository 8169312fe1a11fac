import PgBoss.Retained.Walk

/-!
# What moves the retained count

The operations on one queue, one after another, each begun later than the one before it was over. A
completion or a cancellation carries the stamp of its transaction's start, up to the lag before its
commit. A sweep reads the time to the millisecond, walks the queue, and writes its count; a stop or a
failed batch cuts it short, and its last statement may fail. The counts of the other operations are
written, since they report a write that fails and leave the count to the next sweep.
-/

namespace PgBoss

/-- A transaction that began at `stamp` completes or cancels jobs. -/
inductive Finishes (stamp : Int) (db db' : Database) : Prop
  | complete (name : String) (ids : List Uuid) (output : Option Json) (includeQueued : Bool)
      (attempts : Option (List JobAttempt)) (completed : List Uuid)
      (h : completeJobs stamp name ids output includeQueued attempts db = .ok (db', completed))
  | completeWithOutputs (name : String) (items : List (JobAttempt × Option Json)) (completed : List Uuid)
      (h : completeJobsWithOutputs stamp name items db = .ok (db', completed))
  | cancel (name : String) (ids : List Uuid) (attempts : Option (List JobAttempt)) (cancelled : List Uuid)
      (h : cancelJobs stamp name ids attempts db = .ok (db', cancelled))

/-- `"retained"` of `deleteJobsById`. -/
def deletedRetained (name : String) (ids : List Uuid) (attempts : Option (List JobAttempt)) (retainedOn : Option Int)
    (jobs : List Job) : ℕ :=
  jobs.countP fun j => finishedBy name retainedOn j && (named name ids j && fence attempts j)

/-- `"retained"` of `resumeJobs`. -/
def resumedRetained (name : String) (ids : List Uuid) (retainedOn : Option Int) (jobs : List Job) : ℕ :=
  jobs.countP fun j => finishedBy name retainedOn j && (named name ids j && decide (j.state = .cancelled))

/-- `#reduceRetained`. -/
def reduceRetained (retained : ℕ) (deleted : Bool) (queue : RetainedColumns) : RetainedColumns :=
  if retained > 0 then reduceRetainedCount retained (if deleted then retained else 0) queue else queue

/-- What a walk that was cut short, or a bulk delete, takes off the counts. -/
def reduceDeleted (tally : WalkTally) (queue : RetainedColumns) : RetainedColumns :=
  if tally.deleted > 0 then reduceRetainedCount tally.deletedRetained tally.deleted queue else queue

/-- `TRUNCATE` of a queue's own table, or of every queue's. -/
def truncateTable (one : Option String) (db : Database) : Database :=
  { db with jobs := db.jobs.filter fun j => one.any fun name => decide (j.name ≠ name) }

/-- `getTime`: milliseconds, rounded to the nearest, whichever of two. -/
def GetTime (now : Int) (time : Int) : Prop := now - 500 ≤ time * 1000 ∧ time * 1000 ≤ now + 500

/-- The watermark of a sweep that read `time`. -/
def retainedBefore (time : Int) : Int := (time - deltaLagSeconds * 1000) * 1000

/-- The database, the queue's columns, and when the last operation was over. -/
structure RetainedWorld where
  db : Database
  columns : RetainedColumns := {}
  now : Int

namespace RetainedWorld

/-- The walk of a sweep. -/
def sweepCall (w : RetainedWorld) (name : String) (batchSize : ℕ) (time : Int) : WalkCall :=
  { name := name
    kind := .expired
    batchSize := batchSize
    retainedOn := w.columns.retainedOn
    retainedBefore := some (retainedBefore time) }

/-- `#maintainQueue` where its walk covered the queue, and `setRetainedCount` went through at `stop`. -/
def Swept (name : String) (assured : Prop) (w w' : RetainedWorld) : Prop :=
  ∃ start stop time batchSize walk, w.now < start ∧ start ≤ stop ∧ GetTime start time ∧
    Walk.Wholly (w.sweepCall name batchSize time) { db := w.db } walk ∧ (assured → time * 1000 ≤ stop) ∧
    w' = { db := walk.db
           columns := setRetainedCount stop name walk.tally.retained (retainedBefore time) walk.db.jobs w.columns
           now := stop }

/-- One operation. Where `assured`, a sweep writes its count no earlier than the time it read, and a write that fails is
that of a sweep that deleted nothing the count held. -/
inductive Step (name : String) (assured : Prop) (w : RetainedWorld) : RetainedWorld → Prop
  | finish (now stamp : Int) (db' : Database) (hnow : w.now < now) (hlag : now - deltaLag ≤ stamp)
      (hfinishes : Finishes stamp w.db db') : Step name assured w { w with db := db', now := now }
  | count (now : Int) (hnow : w.now < now) :
      Step name assured w { w with columns := countRetained now name w.db.jobs w.columns, now := now }
  | sweep (w' : RetainedWorld) (hswept : Swept name assured w w') : Step name assured w w'
  | sweepUnsaved (now : Int) (hnow : w.now < now) (time : Int) (batchSize : ℕ) (walk : Walk)
      (hwalk : Walk.Wholly (w.sweepCall name batchSize time) { db := w.db } walk)
      (hassured : assured → walk.tally.deletedRetained = 0) : Step name assured w { w with db := walk.db, now := now }
  | sweepCut (now : Int) (hnow : w.now < now) (time : Int) (batchSize : ℕ) (walk : Walk)
      (hwalk : Walk.Partly (w.sweepCall name batchSize time) { db := w.db } walk) :
      Step name assured w { db := walk.db, columns := reduceDeleted walk.tally w.columns, now := now }
  | deleteInBatches (now : Int) (hnow : w.now < now) (kind : WalkDelete) (batchSize : ℕ) (walk : Walk)
      (hwalk : Walk.Partly ⟨name, kind, batchSize, w.columns.retainedOn, none⟩ { db := w.db } walk ∨
        Walk.Wholly ⟨name, kind, batchSize, w.columns.retainedOn, none⟩ { db := w.db } walk) :
      Step name assured w { db := walk.db, columns := reduceDeleted walk.tally w.columns, now := now }
  | deleteAllJobs (now : Int) (hnow : w.now < now) (one : Option String) (hone : one.all fun n => decide (n = name)) :
      Step name assured w { db := truncateTable one w.db, columns := zeroQueueStats now, now := now }
  | deleteJob (now : Int) (hnow : w.now < now) (ids : List Uuid) (attempts : Option (List JobAttempt)) (db' : Database)
      (deleted : List Uuid) (h : deleteJobsById name ids attempts w.db = .ok (db', deleted)) :
      Step name assured w
        { db := db'
          columns := reduceRetained (deletedRetained name ids attempts w.columns.retainedOn w.db.jobs) true w.columns
          now := now }
  | resume (now : Int) (hnow : w.now < now) (ids : List Uuid) (db' : Database) (resumed : List Uuid)
      (h : resumeJobs now name ids w.db = .ok (db', resumed)) :
      Step name assured w
        { db := db'
          columns := reduceRetained (resumedRetained name ids w.columns.retainedOn w.db.jobs) false w.columns
          now := now }
  | other (now : Int) (hnow : w.now < now) (db' : Database)
      (hsame : (db'.jobs.filter fun j => decide (j.name = name) && j.retained) =
        w.db.jobs.filter fun j => decide (j.name = name) && j.retained) : Step name assured w { w with db := db', now := now }

/-- Any number of operations. -/
abbrev Run (name : String) (assured : Prop) : RetainedWorld → RetainedWorld → Prop :=
  Relation.ReflTransGen (Step name assured)

end RetainedWorld

end PgBoss
