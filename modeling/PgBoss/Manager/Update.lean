import PgBoss.Manager.Upsert
import PgBoss.Fetch.GroupLimit

/-!
# Partial updates

`update()` runs `updateJob` once. Fetches run beside it: its `target` CTE reads a snapshot, and
its UPDATE tests the state again on the rows it has locked. The UPDATE names its rows by id
alone, so it also takes rows of other queues that share the table and the id. `keep_until` moves
with `start_after` by the interval between them, whose days are days of the session's time zone:
they are not all of 24 hours.
-/

namespace PgBoss

open Relational Relation

/-- A day of 24 hours. -/
def dayMicros : Int := 24 * 60 * 60 * 1000000

/-- `timestamptz + (timestamptz - timestamptz)`: the difference is a number of days and a rest, and
`plusDays` adds days in the session's time zone. -/
def plusInterval (plusDays : Int → Int → Int) (start window : Int) : Int :=
  plusDays start (window.tdiv dayMicros) + window.tmod dayMicros

/-- The columns `updateJob` sets, in a session with a time zone. -/
def updateSetIn (plusDays : Int → Int → Int) (now : Timestamp) (o : UpdatePayload) (j : Job) : Job :=
  { updateSet now o j with
    keepUntil :=
      match o.retentionSeconds, o.startAfter with
      | none, some startAfter => plusInterval plusDays (startAfter.resolve now) (j.keepUntil - j.startAfter)
      | _, _ => (updateSet now o j).keepUntil }

/-- `updateJob` from where it has its rows, in such a session. -/
def updateChosenIn (plusDays : Int → Int → Int) (now : Timestamp) (o : UpdatePayload)
    (chosen : List JobKey) (db : Database) : Reply (List Uuid) :=
  if db.jobs.any fun j => stillWaits chosen j && !db.deadLetterExists (updateSetIn plusDays now o j).deadLetter then
    .error .foreignKeyViolation
  else db.updateWhere (stillWaits chosen) (updateSetIn plusDays now o)

/-- The session's time zone gives the days of a window 24 hours each, from an instant on. -/
def KeepsDays (plusDays : Int → Int → Int) (start window : Int) : Prop :=
  plusDays start (window.tdiv dayMicros) = start + window.tdiv dayMicros * dayMicros

/-- The columns of a payload's absent fields are as they were, and so is every column no field is for. -/
structure NamedOnly (o : UpdatePayload) (j j' : Job) : Prop where
  data : o.data = none → j'.data = j.data
  priority : o.priority = none → j'.priority = j.priority
  startAfter : o.startAfter = none → j'.startAfter = j.startAfter
  keepUntil : o.retentionSeconds = none → o.startAfter = none → j'.keepUntil = j.keepUntil
  expireSeconds : o.expireInSeconds = none → j'.expireSeconds = j.expireSeconds
  deletionSeconds : o.deleteAfterSeconds = none → j'.deletionSeconds = j.deletionSeconds
  retryLimit : o.retryLimit = none → j'.retryLimit = j.retryLimit
  retryDelay : o.retryDelay = none → j'.retryDelay = j.retryDelay
  retryBackoff : o.retryBackoff = none → j'.retryBackoff = j.retryBackoff
  retryDelayMax : o.retryDelayMax = none → j'.retryDelayMax = j.retryDelayMax
  deadLetter : o.deadLetter = none → j'.deadLetter = j.deadLetter
  heartbeatSeconds : o.heartbeatSeconds = none → j'.heartbeatSeconds = j.heartbeatSeconds
  groupId : o.groupId = none → j'.groupId = j.groupId
  groupTier : o.groupTier = none → j'.groupTier = j.groupTier
  rest : { j' with
    data := j.data, priority := j.priority, startAfter := j.startAfter, keepUntil := j.keepUntil
    expireSeconds := j.expireSeconds, deletionSeconds := j.deletionSeconds, retryLimit := j.retryLimit
    retryDelay := j.retryDelay, retryBackoff := j.retryBackoff, retryDelayMax := j.retryDelayMax
    deadLetter := j.deadLetter, heartbeatSeconds := j.heartbeatSeconds, groupId := j.groupId
    groupTier := j.groupTier } = j

/-- The retention window is the one given, else the one the job had where only its start moves. -/
structure KeepsWindow (o : UpdatePayload) (j j' : Job) : Prop where
  given : ∀ retention, o.retentionSeconds = some retention → j'.keepUntil - j'.startAfter = seconds retention
  slides : o.retentionSeconds = none → o.startAfter.isSome → j'.keepUntil - j'.startAfter = j.keepUntil - j.startAfter

/-- The payload names no time that counts from `job_now()`. -/
def UpdatePayload.Absolute (o : UpdatePayload) : Prop := ∀ delay, o.startAfter ≠ some (.after delay)

/-- The waiting jobs of the queue that the update targeted in its snapshot. -/
def targeted (name : String) (target : UpdateTarget) (snapshot : Database) (j : Job) : Bool :=
  decide (j ∈ snapshot.jobs) && decide (j.name = name) && decide (j.id ∈ updateTargets name snapshot target) &&
    decide (j.state < .active)

/-- What an update that took its snapshot earlier does to the tables it finds: it sets the jobs it targeted
which still wait and no others, returns their ids, changes what its payload names, and done once more does
nothing more. -/
structure UpdatesTargeted (plusDays : Int → Int → Int) (now : Timestamp) (name : String)
    (target : UpdateTarget) (o : UpdatePayload) (snapshot db db' : Database) (ids : List Uuid) : Prop where
  jobs : db'.jobs = db.jobs.map fun j => if targeted name target snapshot j then updateSetIn plusDays now o j else j
  returned : ids = (db.jobs.filter (targeted name target snapshot)).map Job.id
  named : ∀ j ∈ db.jobs, targeted name target snapshot j = true → NamedOnly o j (updateSetIn plusDays now o j)
  window : ∀ j ∈ db.jobs, targeted name target snapshot j = true → KeepsWindow o j (updateSetIn plusDays now o j)
  again : o.Absolute → ∀ now', updateChosenIn plusDays now' o (updateChoice name target snapshot) db' = .ok (db', ids)

/-- Any number of fetches. -/
def FetchRun : Database → Database → Prop := ReflTransGen fun db db' =>
  ∃ now rank locked o snapshot claimed, fetchNextJobSince now rank locked o snapshot db = .ok (db', claimed)

section Columns

variable {plusDays : Int → Int → Int} {now now' : Timestamp} {o : UpdatePayload} {j : Job}

@[simp] theorem updateSetIn_jobKey : (updateSetIn plusDays now o j).jobKey = j.jobKey := rfl
@[simp] theorem updateSetIn_state : (updateSetIn plusDays now o j).state = j.state := rfl

theorem plusInterval_eq {start window : Int} :
    plusInterval plusDays start window = start + window ↔ KeepsDays plusDays start window := by
  rw [plusInterval, KeepsDays]
  have hparts := Int.tmod_add_tdiv_mul window dayMicros
  constructor <;> intro h <;> omega

/-- In a time zone whose days are all of 24 hours the window is what it was. -/
theorem updateSetIn_eq_updateSet (hdays : ∀ start days, plusDays start days = start + days * dayMicros) :
    updateSetIn plusDays now o j = updateSet now o j := by
  have hinterval : ∀ start window, plusInterval plusDays start window = start + window := fun start window =>
    plusInterval_eq.mpr (hdays start _)
  rw [updateSetIn]
  cases hretention : o.retentionSeconds with
  | some retention => rfl
  | none =>
    cases hstart : o.startAfter with
    | none => rfl
    | some startAfter => simp [updateSet, hinterval, hretention, hstart]

theorem updateSetIn_namedOnly : NamedOnly o j (updateSetIn plusDays now o j) := by
  constructor
  case keepUntil =>
    intro hretention hstart
    simp [updateSetIn, updateSet, hretention, hstart]
  case rest => rfl
  all_goals
    intro habsent
    simp [updateSetIn, updateSet, habsent]

/-- An update keeps the window exactly if the days of the window that moves have 24 hours. -/
theorem updateSetIn_keepsWindow : KeepsWindow o j (updateSetIn plusDays now o j) ↔
    ∀ startAfter, o.retentionSeconds = none → o.startAfter = some startAfter →
      KeepsDays plusDays (startAfter.resolve now) (j.keepUntil - j.startAfter) := by
  constructor
  · intro h startAfter hretention hstart
    have hslides := h.slides hretention (by rw [hstart]; rfl)
    simp only [updateSetIn, updateSet, hretention, hstart, Option.map_some, Option.getD_some] at hslides
    exact plusInterval_eq.mp (sub_eq_iff_eq_add'.mp hslides)
  · intro h
    refine ⟨fun retention hretention => ?_, fun hretention hstart => ?_⟩
    · simp only [updateSetIn, updateSet, hretention, add_sub_cancel_left]
    · obtain ⟨startAfter, hstart⟩ := Option.isSome_iff_exists.mp hstart
      have hinterval := plusInterval_eq.mpr (h startAfter hretention hstart)
      simp only [updateSetIn, updateSet, hretention, hstart, Option.map_some, Option.getD_some, hinterval,
        add_sub_cancel_left]

/-- A payload with absolute times sets the same whenever it is applied. -/
theorem UpdatePayload.Absolute.updateSetIn_eq (h : o.Absolute) : updateSetIn plusDays now' o j = updateSetIn plusDays now o j := by
  cases hstart : o.startAfter with
  | none => simp [updateSetIn, updateSet, hstart]
  | some startAfter =>
    cases startAfter with
    | «at» instant =>
      cases hretention : o.retentionSeconds <;> simp [updateSetIn, updateSet, hstart, hretention, StartAfter.resolve]
    | after delay => exact absurd hstart (h delay)

theorem getD_getD {α : Type} (x : Option α) (a : α) : x.getD (x.getD a) = x.getD a := by
  cases x <;> rfl

/-- A payload with absolute times that keeps the window does nothing more the second time. -/
theorem updateSetIn_again (habsolute : o.Absolute) (hwindow : KeepsWindow o j (updateSetIn plusDays now o j)) :
    updateSetIn plusDays now' o (updateSetIn plusDays now o j) = updateSetIn plusDays now o j := by
  have hnow : updateSetIn plusDays now' o (updateSetIn plusDays now o j) = updateSetIn plusDays now o (updateSetIn plusDays now o j) :=
    habsolute.updateSetIn_eq
  rw [hnow]
  have hslides := hwindow.slides
  have hkeep := updateSetIn_keepsWindow.mp hwindow
  cases hretention : o.retentionSeconds with
  | some retention => simp [updateSetIn, updateSet, hretention, getD_getD]
  | none =>
    cases hstart : o.startAfter with
    | none => simp [updateSetIn, updateSet, hretention, hstart, getD_getD]
    | some startAfter =>
      -- the window that moves is the one that moved before
      have hinterval := plusInterval_eq.mpr (hkeep startAfter hretention hstart)
      simp [updateSetIn, updateSet, hretention, hstart, getD_getD, hinterval]

end Columns

section Statement

variable {plusDays : Int → Int → Int} {now now' : Timestamp} {name : String} {target : UpdateTarget} {o : UpdatePayload}
  {snapshot db db' : Database} {ids : List Uuid} {j : Job}

/-- A job that waits after any number of fetches waited before, as it is. -/
theorem FetchRun.waited (h : FetchRun snapshot db) (hj : j ∈ db.jobs) (hstate : j.state < .active) : j ∈ snapshot.jobs := by
  induction h with
  | refl => exact hj
  | tail _ hfetch ih =>
    obtain ⟨now, rank, locked, o, before, claimed, hfetch⟩ := hfetch
    simp only [fetchNextJobSince] at hfetch
    split at hfetch
    · contradiction
    · rename_i ids hupdate
      obtain ⟨rfl, -⟩ := Prod.mk.inj (Except.ok.inj hfetch)
      rcases (Database.updateWhere_mem hupdate).mp hj with ⟨hj, -⟩ | ⟨k, -, -, rfl⟩
      · exact ih hj
      · exact absurd hstate (by simp [claimSet])

theorem FetchRun.allowed (h : FetchRun snapshot db) (hsnapshot : snapshot.Allowed) : db.Allowed := by
  induction h with
  | refl => exact hsnapshot
  | tail _ hfetch ih =>
    obtain ⟨now, rank, locked, o, before, claimed, hfetch⟩ := hfetch
    exact (fetchNextJobSince_spec ih hfetch).1

theorem updateChosenIn_ok {chosen : List JobKey} (h : updateChosenIn plusDays now o chosen db = .ok (db', ids)) :
    db.updateWhere (stillWaits chosen) (updateSetIn plusDays now o) = .ok (db', ids) := by
  rw [updateChosenIn] at h
  split at h
  · contradiction
  · exact h

/-- An update that sets each row it selects to what it is changes nothing. -/
theorem Database.updateWhere_same {select : Job → Bool} {set : Job → Job} (hdb : db.Allowed)
    (hsame : ∀ j ∈ db.jobs, select j = true → set j = j) :
    db.updateWhere select set = .ok (db, (db.jobs.filter select).map Job.id) := by
  have hnodup := hdb.consistent.nodup clashes_self
  obtain ⟨db', ids, hupdate⟩ : ∃ db' ids, db.updateWhere select set = .ok (db', ids) := Database.updateWhere_total set
    (fun a ha hs b hb hne => by
      rw [hsame a ha hs]
      exact Bool.eq_false_iff.mpr fun h => hne (hdb.consistent.eq_of_clashes ha hb h).symm)
    (fun a ha hs b hb hsb hne => by
      rw [hsame a ha hs, hsame b hb hsb]
      exact Bool.eq_false_iff.mpr fun h => hne (hdb.consistent.eq_of_clashes ha hb h).symm) hnodup
  obtain ⟨hjobs, hqueues, hdependencies, rfl⟩ := Database.updateWhere_ok hupdate
  have hkept : db'.jobs = db.jobs := by
    rw [hjobs]
    refine (List.map_congr_left fun j hj => ?_).trans (List.map_id' _)
    split
    · exact hsame j hj ‹_›
    · rfl
  obtain rfl : db' = db := by
    cases db
    cases db'
    simp_all
  exact hupdate

/-- The rows the update sets are those of the snapshot it targeted which still wait, of whatever queue. -/
theorem stillWaits_iff (hsnapshot : snapshot.Allowed) (hrun : FetchRun snapshot db) (hj : j ∈ db.jobs) :
    stillWaits (updateChoice name target snapshot) j = true ↔
      j ∈ snapshot.jobs ∧ updateSelects name target snapshot j = true ∧ j.state < .active := by
  rw [stillWaits, Bool.and_eq_true, decide_eq_true_eq, decide_eq_true_eq, updateChoice, List.mem_map]
  constructor
  · rintro ⟨⟨k, hk, hkey⟩, hstate⟩
    obtain ⟨hk, hselects⟩ := List.mem_filter.mp hk
    have hwaited := hrun.waited hj hstate
    obtain rfl := hsnapshot.eq_of_jobKey hk hwaited hkey
    exact ⟨hk, hselects, hstate⟩
  · rintro ⟨hwaited, hselects, hstate⟩
    exact ⟨⟨j, List.mem_filter.mpr ⟨hwaited, hselects⟩, rfl⟩, hstate⟩

/-- So the targeted ones are those of its own queue. -/
theorem targeted_iff (hsnapshot : snapshot.Allowed) (hrun : FetchRun snapshot db) (hj : j ∈ db.jobs) :
    targeted name target snapshot j = true ↔
      stillWaits (updateChoice name target snapshot) j = true ∧ j.name = name := by
  rw [stillWaits_iff hsnapshot hrun hj]
  simp only [targeted, updateSelects, Bool.and_eq_true, decide_eq_true_eq]
  constructor
  · rintro ⟨⟨⟨hwaited, rfl⟩, htarget⟩, hstate⟩
    exact ⟨⟨hwaited, ⟨⟨rfl, htarget⟩, hstate⟩, hstate⟩, rfl⟩
  · rintro ⟨⟨hwaited, ⟨⟨-, htarget⟩, -⟩, hstate⟩, hname⟩
    exact ⟨⟨⟨hwaited, hname⟩, htarget⟩, hstate⟩

/-- Done once more, an update that keeps the windows leaves the tables as they are. -/
theorem updateChosenIn_again {chosen : List JobKey} (hdb : db.Allowed) (habsolute : o.Absolute)
    (hwindow : ∀ j ∈ db.jobs, stillWaits chosen j = true → KeepsWindow o j (updateSetIn plusDays now o j))
    (hok : updateChosenIn plusDays now o chosen db = .ok (db', ids)) :
    updateChosenIn plusDays now' o chosen db' = .ok (db', ids) := by
  have hupdate := updateChosenIn_ok hok
  obtain ⟨hjobs, hqueues, -, rfl⟩ := Database.updateWhere_ok hupdate
  have hsame : ∀ r ∈ db'.jobs, stillWaits chosen r = true → updateSetIn plusDays now' o r = r := by
    intro r hr hwaits
    rcases (Database.updateWhere_mem hupdate).mp hr with ⟨-, hnot⟩ | ⟨j, hj, hs, rfl⟩
    · rw [hnot] at hwaits
      contradiction
    · exact updateSetIn_again habsolute (hwindow j hj hs)
  have hids : (db'.jobs.filter (stillWaits chosen)).map Job.id = (db.jobs.filter (stillWaits chosen)).map Job.id := by
    have hkeeps : ∀ j, stillWaits chosen (if stillWaits chosen j then updateSetIn plusDays now o j else j) =
        stillWaits chosen j := fun j => by
      split
      · rfl
      · rfl
    rw [hjobs, List.filter_map, List.map_map]
    simp only [Function.comp_def, hkeeps]
    refine List.map_congr_left fun j hj => ?_
    split <;> rfl
  have hdeadLetter : (db'.jobs.any fun j => stillWaits chosen j &&
      !db'.deadLetterExists (updateSetIn plusDays now' o j).deadLetter) = false := by
    rw [updateChosenIn] at hok
    split at hok
    · contradiction
    · rename_i hnone
      refine List.any_eq_false.mpr fun r hr hbad => hnone ?_
      obtain ⟨hwaits, hmissing⟩ := Bool.and_eq_true_iff.mp hbad
      rcases (Database.updateWhere_mem hupdate).mp hr with ⟨-, hnot⟩ | ⟨j, hj, hs, rfl⟩
      · rw [hnot] at hwaits
        contradiction
      · refine List.any_eq_true.mpr ⟨j, hj, Bool.and_eq_true_iff.mpr ⟨hs, ?_⟩⟩
        rw [hsame _ hr hwaits] at hmissing
        simpa only [Database.deadLetterExists, Database.queue, hqueues] using hmissing
  rw [updateChosenIn, hdeadLetter, Database.updateWhere_same
    (Database.updateWhere_allowed (updateSetIn plusDays now o) hdb (fun _ => ⟨rfl, rfl⟩) hupdate) hsame, hids]
  rfl

/-- No row of another queue that still waits is in the table of the queue with the id of a targeted job. -/
def OwnIds (name : String) (target : UpdateTarget) (snapshot db : Database) : Prop :=
  ∀ j ∈ db.jobs, j.state < .active → j.name ≠ name → snapshot.table j.name = snapshot.table name →
    j.id ∉ updateTargets name snapshot target

instance : Decidable (OwnIds name target snapshot db) :=
  inferInstanceAs (Decidable (∀ j ∈ db.jobs, j.state < .active → j.name ≠ name →
    snapshot.table j.name = snapshot.table name → j.id ∉ updateTargets name snapshot target))

theorem ownIds_iff (hsnapshot : snapshot.Allowed) (hrun : FetchRun snapshot db) : OwnIds name target snapshot db ↔
    ∀ j ∈ db.jobs, stillWaits (updateChoice name target snapshot) j = true → j.name = name := by
  refine forall₂_congr fun j hj => ?_
  rw [stillWaits_iff hsnapshot hrun hj]
  simp only [updateSelects, Bool.and_eq_true, decide_eq_true_eq]
  constructor
  · rintro h ⟨-, ⟨⟨htable, htarget⟩, -⟩, hstate⟩
    by_contra hname
    exact h hstate hname htable htarget
  · exact fun h hstate hname htable htarget =>
      hname (h ⟨hrun.waited hj hstate, ⟨⟨htable, htarget⟩, hstate⟩, hstate⟩)

/-- The ids an update returns are those of targeted jobs only if it sets no others. -/
theorem ownIds_of_returned (hsnapshot : snapshot.Allowed) (hrun : FetchRun snapshot db)
    (hreturned : (db.jobs.filter (stillWaits (updateChoice name target snapshot))).map Job.id =
      (db.jobs.filter (targeted name target snapshot)).map Job.id) : OwnIds name target snapshot db := by
  refine (ownIds_iff hsnapshot hrun).mpr fun j hj hwaits => ?_
  have hsub : (db.jobs.filter (targeted name target snapshot)).Sublist
      (db.jobs.filter (stillWaits (updateChoice name target snapshot))) := by
    have hboth : db.jobs.filter (targeted name target snapshot) =
        (db.jobs.filter (stillWaits (updateChoice name target snapshot))).filter (targeted name target snapshot) := by
      rw [List.filter_filter]
      refine List.filter_congr fun k hk => ?_
      cases htargeted : targeted name target snapshot k with
      | false => rfl
      | true => rw [((targeted_iff hsnapshot hrun hk).mp htargeted).1]; rfl
    rw [hboth]
    exact List.filter_sublist
  have hlength := congrArg List.length hreturned
  rw [List.length_map, List.length_map] at hlength
  have hin : j ∈ db.jobs.filter (targeted name target snapshot) := by
    rw [hsub.eq_of_length hlength.symm]
    exact List.mem_filter.mpr ⟨hj, hwaits⟩
  exact ((targeted_iff hsnapshot hrun hj).mp (List.mem_filter.mp hin).2).2

/-- An update beside any number of fetches does what its payload says to the jobs it targets, and nothing else,
exactly if no waiting row of another queue has the id of one of them in its table, and the session's time zone
gives the days of each window that moves 24 hours. -/
theorem update_named_iff (plusDays : Int → Int → Int) (now : Timestamp) (name : String) (target : UpdateTarget)
    (o : UpdatePayload) (snapshot db db' : Database) (ids : List Uuid) (hsnapshot : snapshot.Allowed)
    (hrun : FetchRun snapshot db)
    (hok : updateChosenIn plusDays now o (updateChoice name target snapshot) db = .ok (db', ids)) :
    UpdatesTargeted plusDays now name target o snapshot db db' ids ↔
      OwnIds name target snapshot db ∧
      ∀ j ∈ db.jobs, targeted name target snapshot j = true → ∀ startAfter, o.retentionSeconds = none →
        o.startAfter = some startAfter → KeepsDays plusDays (startAfter.resolve now) (j.keepUntil - j.startAfter) := by
  obtain ⟨hjobs, -, -, hids⟩ := Database.updateWhere_ok (updateChosenIn_ok hok)
  constructor
  · intro h
    refine ⟨ownIds_of_returned hsnapshot hrun (hids.symm.trans h.returned), fun j hj htargeted => ?_⟩
    exact updateSetIn_keepsWindow.mp (h.window j hj htargeted)
  · rintro ⟨hown, hdays⟩
    have hsame : ∀ j ∈ db.jobs, stillWaits (updateChoice name target snapshot) j = targeted name target snapshot j := by
      intro j hj
      rw [Bool.eq_iff_iff, targeted_iff hsnapshot hrun hj]
      exact (and_iff_left_of_imp ((ownIds_iff hsnapshot hrun).mp hown j hj)).symm
    have hwindow : ∀ j ∈ db.jobs, targeted name target snapshot j = true →
        KeepsWindow o j (updateSetIn plusDays now o j) := fun j hj htargeted =>
      updateSetIn_keepsWindow.mpr (hdays j hj htargeted)
    refine ⟨?_, ?_, fun _ _ _ => updateSetIn_namedOnly, hwindow, fun habsolute now' => ?_⟩
    · rw [hjobs]
      exact List.map_congr_left fun j hj => by rw [hsame j hj]
    · rw [hids, List.filter_congr hsame]
    · exact updateChosenIn_again (hrun.allowed hsnapshot) habsolute (fun j hj hwaits => hwindow j hj (hsame j hj ▸ hwaits)) hok

end Statement

section Shared

/-- Days of 24 hours. -/
def utcDays (start days : Int) : Int := start + days * dayMicros

/-- A waiting job of a queue. -/
def articleJob (name : String) : Job where
  id := 1
  name := name
  startAfter := 0
  createdOn := 0
  keepUntil := 1209600000000
  policy := some .standard

/-- Two queues of the common table. -/
def articleQueues : List Queue := [{ queueDefaults with name := "article" }, { queueDefaults with name := "author" }]

/-- A job of each waits, under one id. -/
def sharedIds : Database := { jobs := [articleJob "article", articleJob "author"], queues := articleQueues }

/-- One of them waits. -/
def oneArticle : Database := { jobs := [articleJob "article"], queues := articleQueues }

/-- An update of the one queue's job changes the other's too, and counts it. -/
theorem sharedId_updates : sharedIds.Allowed ∧ FetchRun sharedIds sharedIds ∧ ∃ db' ids,
    updateChosenIn utcDays 1 { priority := some 5 } (updateChoice "article" (.byId 1) sharedIds) sharedIds = .ok (db', ids) ∧
      ids = [1, 1] ∧ (db'.jobs.map fun j => (j.name, j.priority)) = [("article", 5), ("author", 5)] ∧
      ¬ UpdatesTargeted utcDays 1 "article" (.byId 1) { priority := some 5 } sharedIds sharedIds db' ids := by
  refine ⟨⟨by decide, by decide⟩, .refl, _, _, rfl, rfl, rfl, fun h => ?_⟩
  exact absurd h.returned (by decide)

theorem update_named_iff_deferred : ∃ db' ids,
    updateChosenIn utcDays 1 { startAfter := some (.at 86400000000) } (updateChoice "article" (.byId 1) oneArticle) oneArticle =
        .ok (db', ids) ∧
      UpdatesTargeted utcDays 1 "article" (.byId 1) { startAfter := some (.at 86400000000) } oneArticle oneArticle db' ids :=
  ⟨_, _, rfl, (update_named_iff utcDays 1 "article" (.byId 1) _ oneArticle oneArticle _ _ ⟨by decide, by decide⟩ .refl rfl).mpr
    ⟨by decide, fun _ _ _ _ _ _ => rfl⟩⟩

/-- Days in a zone that goes from five to four hours behind at an instant. -/
def springDays (change start days : Int) : Int :=
  let offset : Int := if start < change then 5 else 4
  let local_ := start - offset * 3600000000 + days * dayMicros
  local_ + (if local_ < change - 5 * 3600000000 then 5 else 4) * 3600000000

/-- Where the clocks go forward inside the window of two weeks that moves, it loses an hour, and one more if
the update is made again. -/
theorem springForward_shrinks : ∃ db' db'' ids,
    updateChosenIn (springDays 172800000000) 1 { startAfter := some (.at 86400000000) }
        (updateChoice "article" (.byId 1) oneArticle) oneArticle = .ok (db', ids) ∧
      updateChosenIn (springDays 172800000000) 1 { startAfter := some (.at 86400000000) }
        (updateChoice "article" (.byId 1) oneArticle) db' = .ok (db'', ids) ∧
      (db'.jobs.map fun j => j.keepUntil - j.startAfter) = [1209600000000 - 3600000000] ∧
      (db''.jobs.map fun j => j.keepUntil - j.startAfter) = [1209600000000 - 2 * 3600000000] :=
  ⟨_, _, _, rfl, rfl, rfl, rfl⟩

end Shared

end PgBoss
