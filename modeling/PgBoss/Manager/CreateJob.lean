import PgBoss.Plans.Insert

/-!
# Throttled and debounced sends

`send()` inserts its job in the slot of `job_now()`. Where a row stands in the way and `singletonNextSlot` is
set, it inserts it once more, an interval later, with a delay it reads from its own clock in between.
-/

namespace PgBoss

open Relational

/-- `getDebounceStartAfter`, in seconds. `now` is the clock's milliseconds with the offset added. -/
def getDebounceStartAfter (singletonSeconds now : Int) : Int :=
  let debounceInterval := singletonSeconds * 1000
  let slot := now / debounceInterval * debounceInterval
  let remaining := singletonSeconds - (now - slot) / 1000
  -- `|| 1`
  let startAfter := if remaining = 0 then 1 else remaining
  if singletonSeconds > 1 then startAfter + 1 else startAfter

/-- Why `#createJob` throws. -/
inductive CreateJobError
  | singletonKeyRequired
  | insert (e : SqlError)
  deriving DecidableEq, Repr

/-- What a send takes from outside: when its two inserts run and its clock is read in between, on the one clock,
and the uuids drawn for its rows. -/
structure SendInstants where
  first : Timestamp
  reading : Timestamp
  second : Timestamp
  firstId : Uuid
  secondId : Uuid

/-- The job of the second insert. Without `singletonSeconds` the delay is `NaN || 1`. -/
def debounced (reading : Timestamp) (x : JobInsert) : JobInsert :=
  match x.singletonSeconds with
  | some singletonSeconds =>
    { x with
      startAfter := .after (seconds (getDebounceStartAfter singletonSeconds (reading / 1000)))
      singletonOffset := some singletonSeconds }
  | none => { x with startAfter := .after (seconds 1) }

/-- `#createJob`, by the row it files. `policy` is the cached queue's, and `others` what other statements make of the
tables between the two inserts. -/
def createJob (t : SendInstants) (name : String) (policy : QueuePolicy) (x : JobInsert) (singletonNextSlot : Bool)
    (others : Database → Database) (db : Database) : Except CreateJobError (Database × Option Job) :=
  if policy = .keyStrictFifo ∧ x.singletonKey.getD "" = "" then .error .singletonKeyRequired
  else
    match insertJobs t.first name false [(x, t.firstId)] db with
    | .error e => .error (.insert e)
    | .ok (db, [job]) => .ok (db, some job)
    | .ok (db, _) =>
      if singletonNextSlot then
        match insertJobs t.second name false [(debounced t.reading x, t.secondId)] (others db) with
        | .error e => .error (.insert e)
        | .ok (db, [job]) => .ok (db, some job)
        | .ok (db, _) => .ok (db, none)
      else .ok (db, none)

section Slots

variable {s n : Int} {now : Timestamp} {x : JobInsert}

/-- The slot of an instant. -/
def slotOf (singletonSeconds now : Int) : Int :=
  seconds (singletonSeconds * (now / seconds singletonSeconds))

/-- The whole second of its slot an instant is in. -/
def secondOf (now : Int) : Int := now / 1000000

/-- The delay runs to the end of the slot the clock read, less the fraction of a second it is into, and for
a slot of more than a second to a second later. -/
theorem getDebounceStartAfter_eq (hs : 1 ≤ s) :
    getDebounceStartAfter s n = s - n / 1000 % s + if s = 1 then 0 else 1 := by
  have hphase : (n - n / (s * 1000) * (s * 1000)) / 1000 = n / 1000 % s := by
    have hdiv : n / (s * 1000) = n / 1000 / s := by
      rw [mul_comm, Int.ediv_ediv_of_nonneg (by omega)]
    have hsub : n - n / 1000 / s * (s * 1000) = n + -(n / 1000 / s * s) * 1000 := by ring
    rw [hdiv, hsub, Int.add_mul_ediv_right _ _ (by omega), Int.emod_def]
    ring
  have hlt : n / 1000 % s < s := Int.emod_lt_of_pos _ (by omega)
  have hremaining : s - n / 1000 % s ≠ 0 := by omega
  simp only [getDebounceStartAfter, hphase, hremaining, if_false]
  split_ifs <;> omega

/-- An offset of the slot's width leads to the next slot. -/
theorem throttleSlot_debounced (hs : x.singletonSeconds = some s) (hpos : 1 ≤ s) (hslot : x.singletonSlot = none) (reading : Timestamp) :
    throttleSlot now (debounced reading x) = some (slotOf s now + seconds s) := by
  have hwidth : seconds s ≠ 0 := by simp only [seconds]; omega
  have hnext : (now + seconds s) / seconds s = now / seconds s + 1 := by
    rw [Int.add_ediv_of_dvd_right dvd_rfl, Int.ediv_self hwidth]
  have hsum : seconds (s * (now / seconds s + 1)) = slotOf s now + seconds s := by
    simp only [slotOf, seconds]; ring
  simp only [debounced, hs, throttleSlot, hslot, Option.getD_some, hnext, hsum]

theorem throttleSlot_first (hs : x.singletonSeconds = some s) (hslot : x.singletonSlot = none)
    (hoffset : x.singletonOffset = some 0) : throttleSlot now x = some (slotOf s now) := by
  simp [throttleSlot, hs, hslot, hoffset, slotOf, seconds]

end Slots

section Insert

variable {db db' : Database} {now : Timestamp} {name : String} {x : JobInsert} {id : Uuid} {rows : List Job}

/-- An insert of one row adds it, or nothing where it is refused. -/
theorem insertJobs_one (h : insertJobs now name false [(x, id)] db = .ok (db', rows)) :
    rows = if refused jobIndexes db.jobs (insertRow now name (db.queue name) false id x) then []
      else [insertRow now name (db.queue name) false id x] := by
  simp only [insertJobs, List.map_cons, List.map_nil] at h
  split at h
  · contradiction
  split at h
  · contradiction
  obtain ⟨-, rfl⟩ := Prod.mk.inj (Except.ok.inj h)
  simp only [insertOrSkip]
  split_ifs <;> rfl

/-- A refused insert leaves the tables as they are. -/
theorem insertJobs_refused (h : insertJobs now name false [(x, id)] db = .ok (db', rows))
    (hrefused : refused jobIndexes db.jobs (insertRow now name (db.queue name) false id x) = true) : db' = db ∧ rows = [] := by
  have hrows := insertJobs_one h
  rw [if_pos hrefused] at hrows
  subst hrows
  have hjobs := (insertJobs_ok h).1
  have hqueues := (insertJobs_ok h).2.1
  have hdependencies := (insertJobs_ok h).2.2.1
  rw [List.append_nil] at hjobs
  cases db
  cases db'
  simp_all

/-- A job holds the slot of a key. -/
def Job.holds (j : Job) (name key : String) (slot : Timestamp) : Prop :=
  j.state ≠ .cancelled ∧ j.name = name ∧ j.slotKey = key ∧ j.singletonOn = some slot

/-- The slot of a key is taken. -/
def Database.Taken (db : Database) (name key : String) (slot : Timestamp) : Prop := ∃ j ∈ db.jobs, j.holds name key slot

/-- A job refuses a created one of its key by the rule of their queue. -/
def Job.rules (j : Job) (policy : Option QueuePolicy) (name key : String) : Prop :=
  j.name = name ∧ j.slotKey = key ∧ j.policy = policy ∧
    (policy = some .short ∧ j.state = .created ∨ policy = some .stately ∧ j.state = .created ∨
      policy = some .exclusive ∧ j.state ≤ .active)

/-- What refuses a job sent with an id, a key and a slot: a job of its id, one that holds its slot, or the rule of
its queue. -/
def Database.Hindered (db : Database) (name key : String) (id : Uuid) (slot : Timestamp) : Prop :=
  (∃ j ∈ db.jobs, j.jobKey = (name, id)) ∨ db.Taken name key slot ∨
    ∃ j ∈ db.jobs, j.rules ((db.queue name).map Queue.policy) name key

theorem refused_insertRow_iff {slot : Timestamp} (hslot : throttleSlot now x = some slot) :
    refused jobIndexes db.jobs (insertRow now name (db.queue name) false id x) = true ↔
      db.Hindered name (x.singletonKey.getD "") (x.id.getD id) slot := by
  have hkey : (insertRow now name (db.queue name) false id x).slotKey = x.singletonKey.getD "" := rfl
  have hcases : ∀ j, clashes jobIndexes (insertRow now name (db.queue name) false id x) j = true ↔
      j.jobKey = (name, x.id.getD id) ∨ j.holds name (x.singletonKey.getD "") slot ∨
        j.rules ((db.queue name).map Queue.policy) name (x.singletonKey.getD "") := by
    intro j
    simp only [jobs_clash_iff, primaryKey_clash, jobI1_clash, jobI2_clash, jobI3_clash, jobI4_clash, jobI6_clash,
      jobI8_clash, jobI13_clash, hkey, Job.holds, Job.rules]
    simp only [insertRow, hslot, Job.jobKey, JobState.le_active]
    grind
  rw [refused_iff]
  constructor
  · rintro ⟨j, hj, hclash⟩
    rcases (hcases j).mp hclash with h | h | h
    · exact .inl ⟨j, hj, h⟩
    · exact .inr (.inl ⟨j, hj, h⟩)
    · exact .inr (.inr ⟨j, hj, h⟩)
  · rintro (⟨j, hj, h⟩ | ⟨j, hj, h⟩ | ⟨j, hj, h⟩)
    · exact ⟨j, hj, (hcases j).mpr (.inl h)⟩
    · exact ⟨j, hj, (hcases j).mpr (.inr (.inl h))⟩
    · exact ⟨j, hj, (hcases j).mpr (.inr (.inr h))⟩

/-- A slot of a key holds one job. -/
theorem Database.Allowed.holds_unique (h : db.Allowed) {key : String} {slot : Timestamp} {a b : Job} (ha : a ∈ db.jobs)
    (hb : b ∈ db.jobs) (hholds : a.holds name key slot) (hholds' : b.holds name key slot) : a = b := by
  obtain ⟨hstate, hname, hkey, hslot⟩ := hholds
  obtain ⟨hstate', hname', hkey', hslot'⟩ := hholds'
  refine h.consistent.eq_of_clashes ha hb (jobs_clash_iff.mpr (.inr (.inr (.inr (.inr (.inl ?_))))))
  exact jobI4_clash.mpr ⟨hstate, hstate', by rw [hslot]; rfl, hslot.trans hslot'.symm, hname.trans hname'.symm,
    hkey.trans hkey'.symm⟩

end Insert

end PgBoss
