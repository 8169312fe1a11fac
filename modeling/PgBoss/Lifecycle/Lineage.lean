import PgBoss.Failure.Drain
import PgBoss.Lifecycle.Evolution

/-!
# Dead letter lineage

A job is sent, or comes from another by a hop: it is the copy of one that failed into a dead letter
queue, or what a redrive made of one. A run that keeps the hops of every row beside the tables shows
what the `source_*` columns say of them.
-/

namespace PgBoss

open Relational Relation

/-- How a job comes from the one before it, with the row that one was then. -/
inductive Hop
  | deadLettered (failed : Job)
  | redriven (moved : Job)
  deriving DecidableEq, Repr

namespace Hop

/-- The job before the hop. -/
def job : Hop → Job
  | deadLettered failed => failed
  | redriven moved => moved

/-- The job that failed, if one did. -/
def failed? : Hop → Option Job
  | deadLettered failed => some failed
  | redriven _ => none

end Hop

/-- The id of the first job of a chain that failed into a dead letter queue. -/
def rootOf (chain : List Hop) : Option Uuid := (chain.findSome? Hop.failed?).map Job.id

@[simp] theorem rootOf_nil : rootOf [] = none := rfl

theorem rootOf_deadLettered (chain : List Hop) (failed : Job) :
    rootOf (chain ++ [.deadLettered failed]) = some ((rootOf chain).getD failed.id) := by
  rw [rootOf, rootOf, List.findSome?_append]
  cases chain.findSome? Hop.failed? <;> rfl

theorem rootOf_redriven (chain : List Hop) (moved : Job) : rootOf (chain ++ [.redriven moved]) = rootOf chain := by
  rw [rootOf, rootOf, List.findSome?_append]
  cases chain.findSome? Hop.failed? <;> rfl

/-- The rows a statement may add, each with the hops it comes by. -/
def Statement.bears (db : Database) (chain : JobKey → List Hop) : Statement → List (Job × List Hop)
  | .failJobs i call =>
    (failResults (call.input i) (acceptedRetries (call.input i) (call.selects i.now db) db)
      (insertedFailures (call.input i) (call.selects i.now db) db)).filterMap fun (j, r) =>
        if r.state = .failed then
          (db.deadLetterQueue r).map fun q =>
            (deadLetterRow (call.input i) j r q, chain j.jobKey ++ [.deadLettered r])
        else none
  | .failDistributed i call => (call.selected i.now db).filterMap fun j =>
      (db.deadLetterQueue j).map fun q =>
        (deadLetterRow (call.input i).toFailInput j (reinsertFailedRow (call.input i) j) q,
          chain j.jobKey ++ [.deadLettered (reinsertFailedRow (call.input i) j)])
  | .redriveJobs o locked => (redriveCandidates o locked db).filterMap fun m =>
      (redriveQueue o db m).map fun q => (redriveRow o m q, chain m.jobKey ++ [.redriven m])
  | s => (s.adds db).map fun r => (r, [])

/-- The tables, with the hops of every row there is and of every row there was. -/
structure LineageWorld where
  db : Database
  chain : JobKey → List Hop
  births : List (JobKey × List Hop) := []

namespace LineageWorld

/-- The rows a statement added, each with the hops it came by. -/
def born (w : LineageWorld) (s : Statement) (db' : Database) : List (Job × List Hop) :=
  (s.bears w.db w.chain).filter fun b => decide (b.1 ∈ db'.jobs)

/-- The world after a statement that returned. -/
def next (w : LineageWorld) (s : Statement) (db' : Database) : LineageWorld where
  db := db'
  chain k := (((w.born s db').find? fun b => decide (b.1.jobKey = k)).map Prod.snd).getD (w.chain k)
  births := ((w.born s db').map fun b => (b.1.jobKey, b.2)) ++ w.births

/-- One statement, or the transaction of a redrive on a backend without multi-mutation statements, which draws
different ids. -/
inductive Step (w : LineageWorld) : LineageWorld → Prop
  | exec (s : Statement) (db' : Database) (hrun : s.exec w.db = .ok db') : Step w (w.next s db')
  | redriveDistributed (o : RedriveOptions) (db' : Database) (n : ℕ)
    (hdraws : ((redriveCandidates o [] w.db).map o.newId).Nodup)
    (hrun : PgBoss.redriveDistributed o w.db = .ok (db', n)) : Step w (w.next (.redriveJobs o []) db')

/-- Any number of steps. -/
abbrev Run : LineageWorld → LineageWorld → Prop := ReflTransGen Step

/-- No job has been sent yet. -/
structure Start (w : LineageWorld) : Prop where
  jobs : w.db.jobs = []
  births : w.births = []

/-- The world after the statements in turn; one that raises is passed over. -/
def play (w : LineageWorld) : List Statement → LineageWorld
  | [] => w
  | s :: rest =>
    match s.exec w.db with
    | .ok db' => (w.next s db').play rest
    | .error _ => w.play rest

/-- Playing statements is a run. -/
theorem play_run (w : LineageWorld) (statements : List Statement) : Run w (w.play statements) := by
  induction statements generalizing w with
  | nil => exact .refl
  | cons s rest ih =>
    rw [play]
    split
    next db' hrun => exact .head (.exec s db' hrun) (ih _)
    next => exact ih w

end LineageWorld

section Columns

variable {flow : Bool} {j r : Job}

/-- The provenance of a row is what it was; an output it had none of may be filled in, and a JSON null dropped. -/
structure KeepsSource (j r : Job) : Prop where
  root : r.sourceRootId = j.sourceRootId
  name : r.sourceName = j.sourceName
  id : r.sourceId = j.sourceId
  createdOn : r.sourceCreatedOn = j.sourceCreatedOn
  retryCount : r.sourceRetryCount = j.sourceRetryCount
  output : j.sourceOutput ≠ none → j.sourceOutput ≠ some "null" → r.sourceOutput = j.sourceOutput

/-- No move touches the provenance of a job, but for a redrive that fails it in place. -/
theorem Evolves.keepsSource (h : Evolves flow j r) : KeepsSource j r := by
  cases h with
  | redriveFail o db hwait =>
    refine ⟨rfl, rfl, rfl, rfl, rfl, fun hsome _ => ?_⟩
    obtain ⟨x, hx⟩ := Option.ne_none_iff_exists'.mp hsome
    exact (congrArg (fun y => y.or j.output) hx).trans hx.symm
  | reinsertRetry | reinsertEnd => exact ⟨rfl, rfl, rfl, rfl, rfl, fun _ hnull => toJsonText_eq hnull⟩
  | _ => exact ⟨rfl, rfl, rfl, rfl, rfl, fun _ _ => rfl⟩

/-- What the columns of a row say of its last hop. -/
def Describes : Option Hop → Job → Prop
  | some (.deadLettered failed), r => r.sourceName = some failed.name ∧ r.sourceId = some failed.id ∧
      r.sourceCreatedOn = some failed.createdOn ∧ r.sourceRetryCount = some failed.retryCount ∧
      failed.output ≠ some "null" ∧ (failed.output ≠ none → r.sourceOutput = failed.output)
  | _, r => r.sourceName = none ∧ r.sourceId = none ∧ r.sourceCreatedOn = none ∧ r.sourceRetryCount = none

theorem KeepsSource.describes (h : KeepsSource j r) {hop : Option Hop} (hj : Describes hop j) : Describes hop r := by
  cases hop with
  | none => exact ⟨h.name.trans hj.1, h.id.trans hj.2.1, h.createdOn.trans hj.2.2.1, h.retryCount.trans hj.2.2.2⟩
  | some hop =>
    cases hop with
    | redriven m => exact ⟨h.name.trans hj.1, h.id.trans hj.2.1, h.createdOn.trans hj.2.2.1, h.retryCount.trans hj.2.2.2⟩
    | deadLettered failed =>
      obtain ⟨hname, hid, hcreated, hcount, hnull, houtput⟩ := hj
      refine ⟨h.name.trans hname, h.id.trans hid, h.createdOn.trans hcreated, h.retryCount.trans hcount, hnull,
        fun hsome => ?_⟩
      rw [h.output (by rwa [houtput hsome]) (by rwa [houtput hsome]), houtput hsome]

/-- A row whose columns name no job has not failed into a dead letter queue in its last hop. -/
theorem Describes.sourceId {chain : List Hop} (h : Describes chain.getLast? r) (hroot : rootOf chain = none) :
    r.sourceId = none := by
  cases hlast : chain.getLast? with
  | none => exact (hlast ▸ h).2.1
  | some hop =>
    rw [hlast] at h
    cases hop with
    | redriven m => exact h.2.1
    | deadLettered failed =>
      obtain ⟨init, rfl⟩ := List.getLast?_eq_some_iff.mp hlast
      rw [rootOf_deadLettered] at hroot
      cases hroot

end Columns

section Births

variable {s : Statement} {db db' : Database} {chain : JobKey → List Hop}

/-- How a statement adds a row. -/
inductive Born (db : Database) (chain : JobKey → List Hop) : Job → List Hop → Prop
  | sent {r : Job} (hroot : r.sourceRootId = none) (hsource : Describes none r) : Born db chain r []
  | copied (i : FailInput) {j failed : Job} (q : Queue) (hj : j ∈ db.jobs) (hkey : failed.jobKey = j.jobKey)
    (hroot : failed.sourceRootId = j.sourceRootId) (hnull : failed.output ≠ some "null") :
    Born db chain (deadLetterRow i j failed q) (chain j.jobKey ++ [.deadLettered failed])
  | moved (o : RedriveOptions) {m : Job} (q : Queue) (hm : m ∈ db.jobs) :
    Born db chain (redriveRow o m q) (chain m.jobKey ++ [.redriven m])

theorem insertRow_born {now : Timestamp} {name : String} {q : Option Queue} {upsertByKey : Bool} {drawn : Uuid}
    {x : JobInsert} : Born db chain (insertRow now name q upsertByKey drawn x) [] :=
  .sent rfl ⟨rfl, rfl, rfl, rfl⟩

theorem Statement.bears_born (hdb : db.Allowed) (hexec : s.exec db = .ok db') {b : Job × List Hop}
    (hb : b ∈ s.bears db chain) : Born db chain b.1 b.2 := by
  cases s with
  | insertJobs now name upsertByKey payload =>
    obtain ⟨rows, hrun⟩ := map_fst_ok hexec
    obtain ⟨r, hr, rfl⟩ := List.mem_map.mp hb
    obtain ⟨-, -, -, -, hrows⟩ := insertJobs_ok hrun
    obtain ⟨q, x, drawn, -, -, rfl⟩ := hrows r (by simpa [adds, hrun] using hr)
    exact insertRow_born
  | insertFlowJobs now name payload =>
    obtain ⟨rows, hrun⟩ := map_fst_ok hexec
    obtain ⟨r, hr, rfl⟩ := List.mem_map.mp hb
    obtain ⟨-, -, -, -, hrows⟩ := insertJobs_ok (insertFlowJobs_ok hrun)
    obtain ⟨q, x, drawn, -, -, rfl⟩ := hrows r (by simpa [adds, hrun] using hr)
    exact insertRow_born
  | failJobs i call =>
    obtain ⟨⟨j, r⟩, hmem, hb⟩ := List.mem_filterMap.mp hb
    dsimp only at hb
    split at hb
    · obtain ⟨q, -, rfl⟩ := Option.map_eq_some_iff.mp hb
      rcases List.mem_append.mp hmem with hmem | hmem
      · obtain ⟨k, hk, heq⟩ := List.mem_map.mp hmem
        obtain ⟨rfl, rfl⟩ := Prod.mk.inj heq
        exact .copied _ q (acceptedRetries_mem hk).1 rfl rfl (toJsonText_ne_null _)
      · obtain ⟨k, hk, heq⟩ := List.mem_map.mp hmem
        obtain ⟨rfl, rfl⟩ := Prod.mk.inj heq
        exact .copied _ q (insertedFailures_mem.mp hk).1.1 rfl rfl (toJsonText_ne_null _)
    · cases hb
  | failDistributed i call =>
    obtain ⟨j, hj, hb⟩ := List.mem_filterMap.mp hb
    obtain ⟨q, -, rfl⟩ := Option.map_eq_some_iff.mp hb
    exact .copied _ q ((call.selection i.now hdb).mem j hj) rfl rfl (toJsonText_ne_null _)
  | redriveJobs o locked =>
    obtain ⟨m, hm, hb⟩ := List.mem_filterMap.mp hb
    obtain ⟨q, -, rfl⟩ := Option.map_eq_some_iff.mp hb
    exact .moved o q (redriveCandidates_mem hm).1
  | _ => simp [bears, adds] at hb

/-- Every row a statement adds is born. -/
theorem Statement.mem_bears {r : Job} (hr : r ∈ s.adds db) : ∃ c, (r, c) ∈ s.bears db chain := by
  cases s with
  | failJobs i call =>
    obtain ⟨⟨j, f⟩, hmem, hrow⟩ := List.mem_filterMap.mp hr
    dsimp only at hrow
    split at hrow
    next hstate =>
      obtain ⟨q, hq, rfl⟩ := Option.map_eq_some_iff.mp hrow
      exact ⟨_, List.mem_filterMap.mpr ⟨(j, f), hmem, by simp only [if_pos hstate, hq, Option.map_some]; rfl⟩⟩
    next => cases hrow
  | failDistributed i call =>
    obtain ⟨j, hj, q, hq, rfl⟩ := isCopy_of_mem hr (rfl : _ = db.queues)
    exact ⟨_, List.mem_filterMap.mpr ⟨j, hj, by rw [hq]; rfl⟩⟩
  | redriveJobs o locked =>
    obtain ⟨m, hm, hrow⟩ := List.mem_filterMap.mp hr
    obtain ⟨q, hq, rfl⟩ := Option.map_eq_some_iff.mp hrow
    exact ⟨_, List.mem_filterMap.mpr ⟨m, hm, by rw [hq]; rfl⟩⟩
  | _ => exact ⟨[], List.mem_map.mpr ⟨r, hr, rfl⟩⟩

end Births

end PgBoss
