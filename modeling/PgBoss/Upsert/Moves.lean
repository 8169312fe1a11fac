import PgBoss.Lifecycle.Evolution
import PgBoss.Manager.Upsert

/-!
# Upserts among other sessions

Any number of upserts of one key, taken step by step in any order, with any statement of another
session between any two steps. `seen` holds every name and id a job has had, and `last` the
upsert that was the last to commit a write, with the jobs it reported.
-/

namespace PgBoss

open Relational Relation

/-- The statement of `update()`, which is the one other way to write a payload. -/
def Statement.isUpdate : Statement → Bool
  | updateJob _ _ _ _ => true
  | _ => false

/-- The rows a statement deletes in order to insert them again: those of the jobs it fails. -/
def Statement.rewritten (db : Database) : Statement → List JobKey
  | failJobs i call => (db.jobs.filter (call.selects i.now db)).map Job.jobKey
  | failDistributed i call => (call.selected i.now db).map Job.jobKey
  | _ => []

/-- The tables, the upserts, and the history a result speaks of. -/
structure UpsertWorld (ι : Type) where
  db : Database
  phase : ι → UpsertPhase
  seen : List JobKey
  last : Option (ι × List JobKey) := none

/-- A statement of another session, or a step of an upsert: an update takes its snapshot, or gets its
locks; the insert; an error, which rolls the upsert back. -/
inductive UpsertMove (ι : Type)
  | statement (s : Statement)
  | choose (i : ι)
  | lock (i : ι) (now : Timestamp)
  | insert (i : ι) (now : Timestamp) (drawn : Uuid)
  | raise (i : ι)

namespace UpsertWorld

variable {ι : Type} [DecidableEq ι]

/-- One upsert gets to another phase. -/
def setPhase (w : UpsertWorld ι) (i : ι) (phase : UpsertPhase) : UpsertWorld ι :=
  { w with phase := Function.update w.phase i phase }

/-- What an update of `#upsert` finds in its snapshot. With no row to offer it is over. -/
def choose (u : Upserts ι) (w : UpsertWorld ι) (i : ι) (refusal : Option Refusal) : UpsertWorld ι :=
  let chosen := updateChoice u.name ((u.strategy i).target u.singletonKey) w.db
  let refusal := refusal.map fun refusal => refusal.look w.db
  w.setPhase i (if chosen = [] then .updated refusal [] else .updating refusal chosen)

/-- The rows an update sets, once it has their locks. -/
def written (w : UpsertWorld ι) (chosen : List JobKey) : List JobKey :=
  (w.db.jobs.filter (stillWaits chosen)).map Job.jobKey

/-- An update of `#upsert` has its locks, and commits if it set a row. -/
def lock (w : UpsertWorld ι) (i : ι) (refusal : Option Refusal) (chosen : List JobKey) (db' : Database)
    (jobs : List Uuid) : UpsertWorld ι where
  db := db'
  phase := Function.update w.phase i (.updated (refusal.map fun refusal => refusal.look w.db) jobs)
  seen := w.seen
  last := if w.written chosen = [] then w.last else some (i, w.written chosen)

/-- The payload row of an upsert's insert. -/
def insertion (u : Upserts ι) (i : ι) : JobInsert := (u.payload i).toInsert u.singletonKey (u.traceContext i)

/-- The row an upsert's insert offers. -/
def offered (u : Upserts ι) (w : UpsertWorld ι) (i : ι) (now : Timestamp) (drawn : Uuid) : Job :=
  insertRow now u.name (w.db.queue u.name) true drawn (insertion u i)

/-- An upsert's insert went in, and commits. -/
def inserted (w : UpsertWorld ι) (i : ι) (db' : Database) (rows : List Job) : UpsertWorld ι where
  db := db'
  phase := Function.update w.phase i
    (.returned { jobs := rows.map Job.id, updated := 0, inserted := rows.length } none)
  seen := rows.map Job.jobKey ++ w.seen
  last := some (i, rows.map Job.jobKey)

/-- An upsert's insert was skipped for that job, and the second update is next. -/
def skipped (w : UpsertWorld ι) (i : ι) (conflict : Job) : UpsertWorld ι :=
  w.setPhase i (.update (some ⟨conflict.jobKey, decide (conflict.state = .active)⟩))

/-- The world after a statement of another session. -/
def ran (w : UpsertWorld ι) (s : Statement) (db' : Database) : UpsertWorld ι where
  db := db'
  phase i := (w.phase i).forget (s.rewritten w.db)
  seen := (s.adds w.db).map Job.jobKey ++ w.seen
  last := w.last

/-- The world after a step, if it can be taken. -/
def exec (u : Upserts ι) (w : UpsertWorld ι) : UpsertMove ι → Option (UpsertWorld ι)
  | .statement s =>
    match s.exec w.db with
    | .error _ => none
    | .ok db' => some (w.ran s db')
  | .choose i =>
    match w.phase i with
    | .update refusal => some (w.choose u i refusal)
    | _ => none
  | .lock i now =>
    match w.phase i with
    | .updating refusal chosen =>
      match updateChosen now (u.payload i) chosen w.db with
      | .error _ => none
      | .ok (db', jobs) => some (w.lock i refusal chosen db' jobs)
    | _ => none
  | .insert i now drawn =>
    match w.phase i with
    | .insert =>
      match insertJobs now u.name true [(insertion u i, drawn)] w.db with
      | .error _ => none
      | .ok (db', row :: rows) => some (w.inserted i db' (row :: rows))
      | .ok (_, []) => (w.db.jobs.find? (clashes jobIndexes (w.offered u i now drawn))).map (w.skipped i)
    | _ => none
  | .raise i =>
    match w.phase i with
    | .returned _ _ | .raised => none
    | _ => some (w.setPhase i .raised)

/-- No other session calls `update()`, and no id is drawn twice. -/
def May (u : Upserts ι) (w : UpsertWorld ι) : UpsertMove ι → Prop
  | .statement s => s.isUpdate = false ∧ ∀ r ∈ s.adds w.db, r.jobKey ∉ w.seen
  | .insert _ _ drawn => (u.name, drawn) ∉ w.seen
  | _ => True

instance (u : Upserts ι) (w : UpsertWorld ι) (m : UpsertMove ι) : Decidable (w.May u m) :=
  match m with
  | .statement s => inferInstanceAs (Decidable (s.isUpdate = false ∧ ∀ r ∈ s.adds w.db, r.jobKey ∉ w.seen))
  | .insert _ _ drawn => inferInstanceAs (Decidable ((u.name, drawn) ∉ w.seen))
  | .choose _ => inferInstanceAs (Decidable True)
  | .lock _ _ => inferInstanceAs (Decidable True)
  | .raise _ => inferInstanceAs (Decidable True)

/-- What a second update needs of the other sessions. When it takes its snapshot a job of the key
waits, and when it gets its locks a job it chose still does, unless the job that refused the
insert has been found active. -/
def undisturbed (u : Upserts ι) (w : UpsertWorld ι) : UpsertMove ι → Bool
  | .choose i =>
    match w.phase i with
    | .update (some refusal) => (refusal.look w.db).active || w.db.jobs.any (waitingWithKey u.name u.singletonKey)
    | _ => true
  | .lock i _ =>
    match w.phase i with
    | .updating (some refusal) chosen => (refusal.look w.db).active || w.db.jobs.any (stillWaits chosen)
    | _ => true
  | _ => true

/-- One step the run may take. -/
inductive Step (u : Upserts ι) (may : UpsertWorld ι → UpsertMove ι → Prop) (w : UpsertWorld ι) : UpsertWorld ι → Prop
  | exec (m : UpsertMove ι) (w' : UpsertWorld ι) (hmay : may w m) (hexec : w.exec u m = some w') : Step u may w w'

/-- Any number of steps. -/
abbrev Run (u : Upserts ι) (may : UpsertWorld ι → UpsertMove ι → Prop) :
    UpsertWorld ι → UpsertWorld ι → Prop := ReflTransGen (Step u may)

/-- Tables the constraints allow, and no upsert begun. -/
structure Start (w : UpsertWorld ι) : Prop where
  allowed : w.db.Allowed
  seen : ∀ j ∈ w.db.jobs, j.jobKey ∈ w.seen
  phase : ∀ i, w.phase i = .update none
  last : w.last = none

section Played

variable (u : Upserts ι) (may : UpsertWorld ι → UpsertMove ι → Prop) [∀ w m, Decidable (may w m)]

/-- The world after the steps in turn, if each can be taken and the run may take it. -/
def play (w : UpsertWorld ι) : List (UpsertMove ι) → Option (UpsertWorld ι)
  | [] => some w
  | m :: rest => if may w m then (w.exec u m).bind fun w' => w'.play rest else none

/-- Playing steps a run may take is a run. -/
theorem play_run {moves : List (UpsertMove ι)} {w w' : UpsertWorld ι} (h : w.play u may moves = some w') :
    Run u may w w' := by
  induction moves generalizing w with
  | nil => exact Option.some.inj h ▸ .refl
  | cons m rest ih =>
    obtain ⟨hmay, h⟩ := Option.ite_none_right_eq_some.mp h
    obtain ⟨next, hnext, hrest⟩ := Option.bind_eq_some_iff.mp h
    exact .head (.exec m next hmay hnext) (ih hrest)

end Played

section Moves

variable {u : Upserts ι} {w w' : UpsertWorld ι} {i : ι} {now : Timestamp} {drawn : Uuid}

/-- A statement of another session. -/
theorem exec_statement {s : Statement} (h : w.exec u (.statement s) = some w') :
    ∃ db', s.exec w.db = .ok db' ∧ w' = w.ran s db' := by
  simp only [exec] at h
  split at h
  · contradiction
  · rename_i db' hexec
    exact ⟨db', hexec, (Option.some.inj h).symm⟩

/-- An update takes its snapshot. -/
theorem exec_choose (h : w.exec u (.choose i) = some w') :
    ∃ refusal, w.phase i = .update refusal ∧ w' = w.choose u i refusal := by
  simp only [exec] at h
  split at h
  · rename_i refusal hphase
    exact ⟨refusal, hphase, (Option.some.inj h).symm⟩
  · contradiction

/-- An update gets its locks. -/
theorem exec_lock (h : w.exec u (.lock i now) = some w') :
    ∃ refusal chosen db' jobs, w.phase i = .updating refusal chosen ∧
      w.db.updateWhere (stillWaits chosen) (updateSet now (u.payload i)) = .ok (db', jobs) ∧
      w' = w.lock i refusal chosen db' jobs := by
  simp only [exec] at h
  split at h
  · rename_i refusal chosen hphase
    split at h
    · contradiction
    · rename_i db' jobs hrun
      exact ⟨refusal, chosen, db', jobs, hphase, updateChosen_ok hrun, (Option.some.inj h).symm⟩
  · contradiction

/-- The insert goes in, or it is skipped for a job there is. -/
theorem exec_insert (h : w.exec u (.insert i now drawn) = some w') :
    w.phase i = .insert ∧
      ((∃ db', insertJobs now u.name true [(insertion u i, drawn)] w.db = .ok (db', [w.offered u i now drawn]) ∧
          w' = w.inserted i db' [w.offered u i now drawn]) ∨
        ∃ conflict ∈ w.db.jobs, clashes jobIndexes (w.offered u i now drawn) conflict = true ∧
          w' = w.skipped i conflict) := by
  simp only [exec] at h
  split at h
  · rename_i hphase
    refine ⟨hphase, ?_⟩
    split at h
    · contradiction
    · rename_i db' row rows hrun
      have hrows : row :: rows = [w.offered u i now drawn] := by
        have hsub : (row :: rows).Sublist [w.offered u i now drawn] := insertJobs_sublist hrun
        exact hsub.eq_of_length_le (by simp)
      rw [hrows] at hrun h
      exact .inl ⟨db', hrun, (Option.some.inj h).symm⟩
    · obtain ⟨conflict, hfind, rfl⟩ := Option.map_eq_some_iff.mp h
      exact .inr ⟨conflict, List.mem_of_find?_eq_some hfind, by simpa using List.find?_some hfind, rfl⟩
  · contradiction

/-- An error. -/
theorem exec_raise (h : w.exec u (.raise i) = some w') :
    (∀ response refusal, w.phase i ≠ .returned response refusal) ∧ w' = w.setPhase i .raised := by
  simp only [exec] at h
  split at h
  · contradiction
  · contradiction
  · rename_i hreturned _
    exact ⟨fun response refusal => hreturned response refusal, (Option.some.inj h).symm⟩

end Moves

end UpsertWorld

end PgBoss
