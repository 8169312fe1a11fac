import PgBoss.Timekeeper.Pass

/-!
# Filing occurrences

Passes of any number of instances claim, one after another by the database's clock, each takes its
own reading of the time, and they insert what they found at whatever later time their inserts run,
in any order and between whatever else goes on. The throttle index keeps a slot of a schedule to one
job while that job is on the send-it queue, and every slot a pass sends ends up with it. A job that
leaves when its slot is over leaves it to no other.
-/

namespace PgBoss

open Relational Timekeeper

variable {lib : RecurrenceLibrary} {stringify : ScheduledRequest → Json} {s : Schedule} {kind : ScheduleKind} {O : Set ℤ}

section Table

variable {db db' : Database} {key : String} {slot : Timestamp}

/-- The slots under a key that hold a job of the send-it queue. -/
def Database.filedUnder (db : Database) (key : String) : Set Timestamp :=
  {slot | ∃ j ∈ db.jobs, j.name = sendIt ∧ j.slotKey = key ∧ j.singletonOn = some slot ∧ j.state ≠ .cancelled}

/-- The slots under a key that jobs were filed in, one after another. -/
def filedSlots (key : String) (filed : List Job) : List Timestamp :=
  filed.filterMap fun j => if j.slotKey = key then j.singletonOn else none

theorem mem_filedSlots {filed : List Job} :
    slot ∈ filedSlots key filed ↔ ∃ j ∈ filed, j.slotKey = key ∧ j.singletonOn = some slot := by
  simp [filedSlots]

/-- The send-it queue as `start()` creates it. -/
def Database.SendIt (db : Database) : Prop := ∃ q, db.queue sendIt = some q ∧ q.policy = .standard

/-- The rows of an insert, with the uuids drawn for them. -/
def forwardedRows (stringify : ScheduledRequest → Json) (jobs : List ForwardedJob) (drawn : List Uuid) :
    List (JobInsert × Uuid) := (jobs.map (ForwardedJob.insert stringify)).zip drawn

/-- The uuids are new to the queue, and one for each job. -/
structure Drawn (db : Database) (jobs : List ForwardedJob) (drawn : List Uuid) : Prop where
  length : drawn.length = jobs.length
  nodup : drawn.Nodup
  fresh : ∀ j ∈ db.jobs, j.name = sendIt → j.id ∉ drawn

/-- A clash of a row that enters a standard queue in a slot, with another row: one of their ids or of their slots. -/
theorem clashes_standard {a b : Job} (hpolicy : a.policy = some .standard) (hupsert : a.upsertByKey = false)
    (h : clashes jobIndexes a b = true) :
    a.jobKey = b.jobKey ∨ (b.state ≠ .cancelled ∧ a.singletonOn = b.singletonOn ∧ a.name = b.name ∧ a.slotKey = b.slotKey) := by
  rcases jobs_clash_iff.mp h with h | h | h | h | h | h | h | h
  · exact .inl (primaryKey_clash.mp h)
  · exact nomatch hpolicy.symm.trans (jobI1_clash.mp h).1.2
  · exact nomatch hpolicy.symm.trans (jobI2_clash.mp h).1.2
  · exact nomatch hpolicy.symm.trans (jobI3_clash.mp h).1.2
  · obtain ⟨-, hb, -, hon, hname, hkey⟩ := jobI4_clash.mp h
    exact .inr ⟨hb, hon, hname, hkey⟩
  · exact nomatch hpolicy.symm.trans (jobI6_clash.mp h).1.2
  · exact nomatch hpolicy.symm.trans (jobI8_clash.mp h).1.2
  · exact nomatch hupsert.symm.trans (jobI13_clash.mp h).1.2

variable {now : Timestamp} {jobs : List ForwardedJob} {drawn : List Uuid} {inserted : List Job} {f : ForwardedJob}

/-- A row a pass inserted is one of its jobs, in the slot it names. -/
theorem inserted_forwarded (h : insertJobs now sendIt false (forwardedRows stringify jobs drawn) db = .ok (db', inserted))
    {r : Job} (hr : r ∈ inserted) : r.name = sendIt ∧ r.state = .created ∧
      ∃ f ∈ jobs, r.slotKey = f.singletonKey ∧ r.singletonOn = some f.singletonSlot := by
  obtain ⟨-, -, -, -, hrows⟩ := insertJobs_ok h
  obtain ⟨q, x, id, -, hx, rfl⟩ := hrows r hr
  obtain ⟨f, hf, rfl⟩ := List.mem_map.mp (List.of_mem_zip hx).1
  exact ⟨rfl, rfl, f, hf, rfl, rfl⟩

/-- The slots filled after an insert are those filled before and those it filled. -/
theorem filedUnder_insert
    (h : insertJobs now sendIt false (forwardedRows stringify jobs drawn) db = .ok (db', inserted)) :
    slot ∈ db'.filedUnder key ↔ slot ∈ db.filedUnder key ∨ slot ∈ filedSlots key inserted := by
  have hjobs := (insertJobs_ok h).1
  constructor
  · rintro ⟨j, hj, hname, hkey, hon, hstate⟩
    rw [hjobs] at hj
    rcases List.mem_append.mp hj with hj | hj
    · exact .inl ⟨j, hj, hname, hkey, hon, hstate⟩
    · exact .inr (mem_filedSlots.mpr ⟨j, hj, hkey, hon⟩)
  · rintro (⟨j, hj, hrest⟩ | hslot)
    · exact ⟨j, by rw [hjobs]; exact List.mem_append_left _ hj, hrest⟩
    · obtain ⟨j, hj, hkey, hon⟩ := mem_filedSlots.mp hslot
      obtain ⟨hname, hcreated, -⟩ := inserted_forwarded h hj
      exact ⟨j, by rw [hjobs]; exact List.mem_append_right _ hj, hname, hkey, hon, by simp [hcreated]⟩

/-- An insert fills a slot that was empty, and no slot twice. -/
theorem filedSlots_insert (hdb : db.Allowed)
    (h : insertJobs now sendIt false (forwardedRows stringify jobs drawn) db = .ok (db', inserted)) (key : String) :
    (filedSlots key inserted).Nodup ∧ ∀ slot ∈ filedSlots key inserted, slot ∉ db.filedUnder key := by
  have hcons : Consistent jobIndexes (db.jobs ++ inserted) := (insertJobs_ok h).1 ▸ ((insertJobs_ok h).2.2.2.1 hdb).consistent
  obtain ⟨-, hins, hcross⟩ := consistent_append.mp hcons
  have hclash : ∀ {a b : Job} {slot}, a.name = b.name → a.slotKey = b.slotKey → a.singletonOn = some slot →
      b.singletonOn = some slot → a.state ≠ .cancelled → b.state ≠ .cancelled → clashes jobIndexes a b = true :=
    fun hname hkey ha hb has hbs => jobs_clash_iff.mpr (.inr (.inr (.inr (.inr (.inl (jobI4_clash.mpr
      ⟨has, hbs, by simp [ha], ha.trans hb.symm, hname, hkey⟩))))))
  constructor
  · rw [filedSlots, List.nodup_iff_pairwise_ne, List.pairwise_filterMap]
    refine hins.imp_of_mem fun {a b} ha hb hfree slot hslot slot' hslot' heq => ?_
    obtain ⟨hka, ha'⟩ := Option.ite_none_right_eq_some.mp hslot
    obtain ⟨hkb, hb'⟩ := Option.ite_none_right_eq_some.mp hslot'
    subst heq
    obtain ⟨hna, hsa, -⟩ := inserted_forwarded h ha
    obtain ⟨hnb, hsb, -⟩ := inserted_forwarded h hb
    rw [hclash (hna.trans hnb.symm) (hka.trans hkb.symm) ha' hb' (by simp [hsa]) (by simp [hsb])] at hfree
    contradiction
  · rintro slot hslot ⟨j, hj, hname, hkey, hon, hstate⟩
    obtain ⟨r, hr, hrkey, hron⟩ := mem_filedSlots.mp hslot
    obtain ⟨hrname, hrs, -⟩ := inserted_forwarded h hr
    have hfree := hcross j hj r hr
    rw [hclash (hname.trans hrname.symm) (hkey.trans hrkey.symm) hon hron hstate (by simp [hrs])] at hfree
    contradiction

/-- A job that is inserted finds its slot filled afterwards, by itself or by the one there. -/
theorem filedUnder_of_insert (hqueue : db.SendIt) (hdrawn : Drawn db jobs drawn)
    (h : insertJobs now sendIt false (forwardedRows stringify jobs drawn) db = .ok (db', inserted)) (hf : f ∈ jobs) :
    f.singletonSlot ∈ db'.filedUnder f.singletonKey := by
  obtain ⟨q, hq, hstandard⟩ := hqueue
  have hlength : (jobs.map (ForwardedJob.insert stringify)).length = drawn.length := by
    rw [List.length_map, hdrawn.length]
  obtain ⟨i, hi, rfl⟩ := List.getElem_of_mem hf
  have hid : i < drawn.length := hdrawn.length ▸ hi
  have hpayload : (ForwardedJob.insert stringify jobs[i], drawn[i]) ∈ forwardedRows stringify jobs drawn := by
    refine List.mem_of_getElem (i := i) (h := by simp [forwardedRows, hi, hid]) ?_
    simp [forwardedRows]
  have hnodup : ((forwardedRows stringify jobs drawn).map Prod.snd).Nodup := by
    rw [forwardedRows, List.map_snd_zip hlength.ge]
    exact hdrawn.nodup
  have hsettled : ∀ row, row = insertRow now sendIt (some q) false drawn[i] (ForwardedJob.insert stringify jobs[i]) →
      row ∈ inserted ∨ ∃ r ∈ db'.jobs, clashes jobIndexes row r = true := by
    rintro row rfl
    have hrun := h
    simp only [insertJobs] at hrun
    split at hrun
    · contradiction
    split at hrun
    · contradiction
    obtain ⟨rfl, rfl⟩ := Prod.mk.inj (Except.ok.inj hrun)
    exact insertOrSkip_settles (List.mem_map.mpr ⟨_, hpayload, by rw [hq]⟩)
  have hinserted : insertRow now sendIt (some q) false drawn[i] (ForwardedJob.insert stringify jobs[i]) ∈ inserted →
      jobs[i].singletonSlot ∈ db'.filedUnder jobs[i].singletonKey := fun hin =>
    (filedUnder_insert h).mpr (.inr (mem_filedSlots.mpr ⟨_, hin, rfl, rfl⟩))
  rcases hsettled _ rfl with hin | ⟨r, hr, hclash⟩
  · exact hinserted hin
  · rcases clashes_standard (by simp [insertRow, hstandard]) rfl hclash with hkey | ⟨hstate, hon, hname, hslot⟩
    · rw [(insertJobs_ok h).1] at hr
      rcases List.mem_append.mp hr with hr | hr
      · refine absurd ?_ (hdrawn.fresh r hr (congrArg Prod.fst hkey).symm)
        rw [← show _ = r.id from congrArg Prod.snd hkey]
        exact List.getElem_mem hid
      · obtain ⟨q', x, id, hq', hx, rfl⟩ := (insertJobs_ok h).2.2.2.2 r hr
        obtain ⟨f', -, rfl⟩ := List.mem_map.mp (List.of_mem_zip hx).1
        have hids : drawn[i] = id := congrArg Prod.snd hkey
        have hsame := List.inj_on_of_nodup_map hnodup hpayload hx hids
        obtain rfl := Option.some.inj (hq.symm.trans hq')
        obtain ⟨hjob, hid⟩ := Prod.mk.inj hsame
        rw [← hjob, ← hid] at hr
        exact hinserted hr
    · exact ⟨r, hr, hname.symm, hslot.symm, hon.symm, hstate⟩

end Table

section Sent

variable {o : ℤ} {slot : Timestamp}

/-- A pass: the stamp its claim replaced and the one it set, by the database's clock, and what it took
for the time when it read the schedules. -/
structure PassRecord where
  prior : Option ℤ
  stamp : ℤ
  time : ℤ
  deriving DecidableEq

/-- The slots a pass sends for the schedule. -/
def sentSlots (lib : RecurrenceLibrary) (s : Schedule) (p : PassRecord) : List Timestamp :=
  (forward lib p.time p.prior s).scheduled.map ForwardedJob.singletonSlot

/-- Instants share a slot where they share a minute. -/
theorem throttleSlot_eq_iff {a b : ℤ} : Timekeeper.throttleSlot a = Timekeeper.throttleSlot b ↔ a / windowMillis = b / windowMillis := by
  refine ⟨fun h => ?_, fun h => by rw [Timekeeper.throttleSlot, Timekeeper.throttleSlot, h]⟩
  exact Int.eq_of_mul_eq_mul_right (by decide) (Int.eq_of_mul_eq_mul_right (by decide) h)

/-- An instant comes before its slot ends. -/
theorem lt_throttleSlot (o : ℤ) : o * 1000 < (Timekeeper.throttleSlot o : ℤ) + windowMillis * 1000 := by
  simp only [Timekeeper.throttleSlot, windowMillis, occurrenceWindowSeconds]
  omega

theorem mem_occurrenceSlots {missed : Option ℤ} {due : List ℤ} :
    slot ∈ occurrenceSlots missed due ↔ ∃ o, (o ∈ due ∨ missed = some o) ∧ Timekeeper.throttleSlot o = slot := by
  simp only [occurrenceSlots, List.mem_reverse, List.mem_dedup, List.mem_map, List.mem_append, Option.mem_toList,
    or_comm]

theorem sentSlots_eq {due : List ℤ} {missed : Option ℤ} {p : PassRecord}
    (hdue : dueOccurrences lib s.cron s.kind s.timezone p.time = .ok (kind, due))
    (hmissed : missedOccurrence lib s kind p.prior (p.time - windowMillis) = .ok missed) :
    sentSlots lib s p = occurrenceSlots missed due := by
  simp only [sentSlots, forward, hdue, hmissed, List.map_map]
  exact List.map_id _

/-- A pass sends the slots of what is due and of what was missed, -/
theorem mem_sentSlots (h : s.Recurs lib kind O) {p : PassRecord} : slot ∈ sentSlots lib s p ↔
    ∃ o, (o ∈ dueAt kind O p.time ∨ o ∈ missedAt s O p.prior (p.time - windowMillis)) ∧ Timekeeper.throttleSlot o = slot := by
  obtain ⟨due, hdue, hdueAt⟩ := dueOccurrences_spec h p.time
  obtain ⟨missed, hmissed, hmissedAt⟩ := missedOccurrence_spec h p.prior (p.time - windowMillis)
  simp only [sentSlots_eq hdue hmissed, mem_occurrenceSlots, hdueAt, hmissedAt]

/-- and no slot twice. -/
theorem sentSlots_nodup (h : s.Recurs lib kind O) (p : PassRecord) : (sentSlots lib s p).Nodup := by
  obtain ⟨due, hdue, -⟩ := dueOccurrences_spec h p.time
  obtain ⟨missed, hmissed, -⟩ := missedOccurrence_spec h p.prior (p.time - windowMillis)
  rw [sentSlots_eq hdue hmissed]
  exact List.nodup_reverse.mpr (List.nodup_dedup _)

theorem dueAt_mem {t : ℤ} (ho : o ∈ dueAt kind O t) : o ∈ O ∧ o ∈ Set.Ioc (t - windowMillis) t := by
  cases kind with
  | rrule => exact ho
  | cron => exact ⟨ho.1.mem, ho.2, ho.1.le⟩

/-- No slot a pass sends was over when the pass before it claimed. -/
theorem sentSlots_late (h : s.Recurs lib kind O) {stamp t last slot : ℤ} (hclock : last ≤ t)
    (hslot : slot ∈ sentSlots lib s ⟨some last, stamp, t⟩) : (last - windowMillis) * 1000 < slot + windowMillis * 1000 := by
  obtain ⟨o, ho, rfl⟩ := (mem_sentSlots h).mp hslot
  have hlate : last - windowMillis < o := by
    rcases ho with hdue | ⟨-, last', hlast, hlatest⟩
    · have hin : t - windowMillis < o := (dueAt_mem hdue).2.1
      omega
    · obtain rfl := Option.some.inj hlast
      have hafter := (le_max_left _ _).trans_lt hlatest.1.2.1
      simp only [windowMillis, occurrenceWindowSeconds]
      omega
  have := lt_throttleSlot o
  omega

end Sent

section Runs

/-- The tables, `cron_on`, the passes so far, the last one first, the jobs of those that have not inserted
yet, the jobs that were filed, and the slots of the schedule whose job left before they were over. -/
structure CronWorld where
  db : Database
  cronOn : Option ℤ := none
  passes : List PassRecord := []
  pending : List (List ForwardedJob) := []
  filed : List Job := []
  lost : List Timestamp := []

/-- The schedule is one of the rows, which differ by name and key; a queue's name has no backslash. -/
structure Schedule.Among (s : Schedule) (rows : List Schedule) : Prop where
  mem : s ∈ rows
  names : ∀ r ∈ rows, '\\' ∉ r.name.toList
  distinct : (rows.map fun r => (r.name, r.key)).Nodup

namespace CronWorld

/-- A slot that ended a minute before the last claim, or earlier, and that no job yet to be inserted names. -/
def Over (s : Schedule) (w : CronWorld) (slot : ℤ) : Prop :=
  (∀ jobs ∈ w.pending, ∀ f ∈ jobs, f.singletonKey = occurrenceKey s.name s.key → f.singletonSlot ≠ slot) ∧
    ∃ last, w.cronOn = some last ∧ slot + windowMillis * 1000 ≤ (last - windowMillis) * 1000

/-- What else goes on fills no slot of the schedule, and takes the jobs out of those that are over, and of
those `lost`. -/
structure Leaves (s : Schedule) (w : CronWorld) (db' : Database) (lost : List Timestamp) : Prop where
  fills : db'.filedUnder (occurrenceKey s.name s.key) ⊆ w.db.filedUnder (occurrenceKey s.name s.key)
  keeps : ∀ slot ∈ w.db.filedUnder (occurrenceKey s.name s.key),
    slot ∈ db'.filedUnder (occurrenceKey s.name s.key) ∨ w.Over s slot ∨ slot ∈ lost
  queue : w.db.SendIt → db'.SendIt
  allowed : w.db.Allowed → db'.Allowed

/-- A pass claims at `stamp` and reads the schedules at what it takes for `t`, neither before the claim it
follows, and `near` enough to the pass before it; a pass inserts; anything else goes on. -/
inductive Step (lib : RecurrenceLibrary) (stringify : ScheduledRequest → Json) (s : Schedule)
    (near : PassRecord → PassRecord → Prop) : CronWorld → CronWorld → Prop
  | read {w : CronWorld} (stamp t : ℤ) (rows : List Schedule) (hclock : ∀ c, w.cronOn = some c → c ≤ stamp ∧ c ≤ t)
      (hnear : ∀ last, w.passes.head? = some last → near last ⟨w.cronOn, stamp, t⟩) (hrows : s.Among rows) :
      Step lib stringify s near w { w with
        cronOn := some stamp
        passes := ⟨w.cronOn, stamp, t⟩ :: w.passes
        pending := if (cron lib t w.cronOn rows).scheduled = [] then w.pending
          else w.pending ++ [(cron lib t w.cronOn rows).scheduled] }
  | insert {w : CronWorld} (now : Timestamp) (jobs : List ForwardedJob) (drawn : List Uuid) {db' : Database}
      {inserted : List Job} (hpending : jobs ∈ w.pending) (hdrawn : Drawn w.db jobs drawn)
      (h : insertJobs now sendIt false (forwardedRows stringify jobs drawn) w.db = .ok (db', inserted)) :
      Step lib stringify s near w { w with
        db := db'
        pending := w.pending.erase jobs
        filed := w.filed ++ inserted }
  | other {w : CronWorld} (db' : Database) (lost : List Timestamp) (h : w.Leaves s db' lost) :
      Step lib stringify s near w { w with db := db', lost := w.lost ++ lost }

/-- A run of steps. -/
def Run (lib : RecurrenceLibrary) (stringify : ScheduledRequest → Json) (s : Schedule) (near : PassRecord → PassRecord → Prop) :
    CronWorld → CronWorld → Prop := Relation.ReflTransGen (Step lib stringify s near)

/-- No pass has read the schedule yet, and no job of the schedule is on the send-it queue. -/
structure Start (s : Schedule) (w : CronWorld) : Prop where
  allowed : w.db.Allowed
  queue : w.db.SendIt
  empty : w.db.filedUnder (occurrenceKey s.name s.key) = ∅
  passes : w.passes = []
  pending : w.pending = []
  filed : w.filed = []

/-- The slots of the schedule that were filed, one after another. -/
def slots (s : Schedule) (w : CronWorld) : List Timestamp := filedSlots (occurrenceKey s.name s.key) w.filed

/-- What every reachable state keeps: a slot stays filled until it is over, and is filed once, unless its job
is lost; every slot a pass sent is filed or is to be inserted, and only those are. -/
structure Files (lib : RecurrenceLibrary) (s : Schedule) (w : CronWorld) : Prop where
  allowed : w.db.Allowed
  queue : w.db.SendIt
  filled : ∀ slot ∈ w.db.filedUnder (occurrenceKey s.name s.key), slot ∈ w.slots s
  stays : ∀ slot ∈ w.slots s, slot ∈ w.db.filedUnder (occurrenceKey s.name s.key) ∨ w.Over s slot ∨ slot ∈ w.lost
  once : ∀ slot ∉ w.lost, (w.slots s).count slot ≤ 1
  sent : ∀ p ∈ w.passes, ∀ f ∈ (forward lib p.time p.prior s).scheduled,
    f.singletonSlot ∈ w.slots s ∨ ∃ jobs ∈ w.pending, f ∈ jobs
  asked : ∀ slot ∈ w.slots s, ∃ p ∈ w.passes, slot ∈ sentSlots lib s p
  awaits : ∀ jobs ∈ w.pending, ∀ f ∈ jobs, f.singletonKey = occurrenceKey s.name s.key →
    ∃ p ∈ w.passes, f.singletonSlot ∈ sentSlots lib s p

theorem Start.files {w : CronWorld} (h : w.Start s) : w.Files lib s where
  allowed := h.allowed
  queue := h.queue
  filled := by simp [h.empty]
  stays := by simp [slots, h.filed, filedSlots]
  once := by simp [slots, h.filed, filedSlots]
  sent := by simp [h.passes]
  asked := by simp [slots, h.filed, filedSlots]
  awaits := by simp [h.pending]

variable {near : PassRecord → PassRecord → Prop} {w w' w₀ : CronWorld} {rows : List Schedule} {stamp t : ℤ} {f : ForwardedJob}

theorem forward_key {lastPass : Option ℤ} (hf : f ∈ (forward lib t lastPass s).scheduled) :
    f.singletonKey = occurrenceKey s.name s.key := by
  simp only [forward] at hf
  split at hf
  · contradiction
  · obtain ⟨slot, -, rfl⟩ := List.mem_map.mp hf
    rfl

/-- Of all the jobs a pass inserts, those under the key of a schedule are the ones it inserts for it. -/
theorem mem_cron_iff {lastPass : Option ℤ} (hrows : s.Among rows) :
    f ∈ (forward lib t lastPass s).scheduled ↔
      f ∈ (cron lib t lastPass rows).scheduled ∧ f.singletonKey = occurrenceKey s.name s.key := by
  constructor
  · exact fun hf => ⟨List.mem_flatMap.mpr ⟨s, hrows.mem, hf⟩, forward_key hf⟩
  · rintro ⟨hf, hkey⟩
    obtain ⟨r, hr, hf⟩ := List.mem_flatMap.mp hf
    obtain ⟨hname, hrkey⟩ := occurrenceKey_inj (hrows.names r hr) (hrows.names s hrows.mem)
      ((forward_key hf).symm.trans hkey)
    have hsame : r = s := List.inj_on_of_nodup_map hrows.distinct hr hrows.mem (Prod.ext hname hrkey)
    exact hsame ▸ hf

/-- The sends that wait after a pass: those that waited, and the pass's own unless it found nothing due. -/
theorem mem_pending_read {pending : List (List ForwardedJob)} {jobs scheduled : List ForwardedJob} :
    jobs ∈ (if scheduled = [] then pending else pending ++ [scheduled]) ↔
      jobs ∈ pending ∨ scheduled ≠ [] ∧ jobs = scheduled := by
  split
  case isTrue hnone => simp [hnone]
  case isFalse hsome => simp [hsome]

/-- A slot that is over stays over when a pass reads: the pass sends later ones. -/
theorem Over.read (hrec : s.Recurs lib kind O) (hclock : ∀ c, w.cronOn = some c → c ≤ stamp ∧ c ≤ t) (hrows : s.Among rows)
    {slot : ℤ} (h : w.Over s slot) : Over s { w with
    cronOn := some stamp
    passes := ⟨w.cronOn, stamp, t⟩ :: w.passes
    pending := if (cron lib t w.cronOn rows).scheduled = [] then w.pending
      else w.pending ++ [(cron lib t w.cronOn rows).scheduled] } slot := by
  obtain ⟨hpending, last, hlast, hended⟩ := h
  obtain ⟨hstamp, hlater⟩ := hclock last hlast
  refine ⟨fun jobs hjobs f hf hkey => ?_, stamp, rfl, by omega⟩
  rcases mem_pending_read.mp hjobs with hjobs | ⟨-, rfl⟩
  · exact hpending jobs hjobs f hf hkey
  · intro hslot
    have hsent : slot ∈ sentSlots lib s ⟨some last, stamp, t⟩ :=
      List.mem_map.mpr ⟨f, (mem_cron_iff hrows).mpr ⟨hlast ▸ hf, hkey⟩, hslot⟩
    have hlate := sentSlots_late hrec hlater hsent
    omega

theorem Files.read (hrec : s.Recurs lib kind O) (h : w.Files lib s) (hclock : ∀ c, w.cronOn = some c → c ≤ stamp ∧ c ≤ t)
    (hrows : s.Among rows) : Files lib s { w with
    cronOn := some stamp
    passes := ⟨w.cronOn, stamp, t⟩ :: w.passes
    pending := if (cron lib t w.cronOn rows).scheduled = [] then w.pending
      else w.pending ++ [(cron lib t w.cronOn rows).scheduled] } := by
  refine ⟨h.allowed, h.queue, h.filled, fun slot hslot => (h.stays slot hslot).imp_right (Or.imp_left (Over.read hrec hclock hrows)),
    h.once, fun p hp f hf => ?_, fun slot hslot => ?_, fun jobs hjobs f hf hkey => ?_⟩
  · rcases List.mem_cons.mp hp with rfl | hp
    · have hmem := ((mem_cron_iff hrows).mp hf).1
      have hwaits := (@mem_pending_read w.pending _ _).mpr (.inr ⟨List.ne_nil_of_mem hmem, rfl⟩)
      exact .inr ⟨(cron lib t w.cronOn rows).scheduled, hwaits, hmem⟩
    · exact (h.sent p hp f hf).imp_right fun ⟨jobs, hjobs, hfj⟩ => ⟨jobs, mem_pending_read.mpr (.inl hjobs), hfj⟩
  · obtain ⟨p, hp, hsent⟩ := h.asked slot hslot
    exact ⟨p, List.mem_cons_of_mem _ hp, hsent⟩
  · rcases mem_pending_read.mp hjobs with hjobs | ⟨-, rfl⟩
    · obtain ⟨p, hp, hsent⟩ := h.awaits jobs hjobs f hf hkey
      exact ⟨p, List.mem_cons_of_mem _ hp, hsent⟩
    · exact ⟨_, List.mem_cons_self, List.mem_map_of_mem ((mem_cron_iff hrows).mpr ⟨hf, hkey⟩)⟩

theorem Files.insert (h : w.Files lib s) {now : Timestamp} {jobs : List ForwardedJob} {drawn : List Uuid}
    {db' : Database} {inserted : List Job} (hpending : jobs ∈ w.pending) (hdrawn : Drawn w.db jobs drawn)
    (hrun : insertJobs now sendIt false (forwardedRows stringify jobs drawn) w.db = .ok (db', inserted)) :
    Files lib s { w with db := db', pending := w.pending.erase jobs, filed := w.filed ++ inserted } := by
  have hslots : filedSlots (occurrenceKey s.name s.key) (w.filed ++ inserted) =
      w.slots s ++ filedSlots (occurrenceKey s.name s.key) inserted := List.filterMap_append
  obtain ⟨-, hqueues, -, hallowed, -⟩ := insertJobs_ok hrun
  obtain ⟨hnodup, hempty⟩ := filedSlots_insert h.allowed hrun (occurrenceKey s.name s.key)
  -- what an insert files is a slot one of its jobs names, so no slot that is over
  have hnamed : ∀ slot ∈ filedSlots (occurrenceKey s.name s.key) inserted,
      ∃ f ∈ jobs, f.singletonKey = occurrenceKey s.name s.key ∧ f.singletonSlot = slot := by
    intro slot hslot
    obtain ⟨j, hj, hkey, hon⟩ := mem_filedSlots.mp hslot
    obtain ⟨-, -, f, hf, hfkey, hfon⟩ := inserted_forwarded hrun hj
    exact ⟨f, hf, hfkey.symm.trans hkey, Option.some.inj (hfon.symm.trans hon)⟩
  have hfilled : ∀ slot ∈ db'.filedUnder (occurrenceKey s.name s.key),
      slot ∈ filedSlots (occurrenceKey s.name s.key) (w.filed ++ inserted) := by
    intro slot hslot
    rw [hslots]
    exact List.mem_append.mpr (((filedUnder_insert hrun).mp hslot).imp_left (h.filled slot))
  refine ⟨hallowed h.allowed, ?_, hfilled, fun slot hslot => ?_, fun slot hkept => ?_, fun p hp f hf => ?_, fun slot hslot => ?_,
    fun jobs' hjobs' f hf hkey => h.awaits jobs' (List.mem_of_mem_erase hjobs') f hf hkey⟩
  · obtain ⟨q, hq, hpolicy⟩ := h.queue
    exact ⟨q, by rw [Database.queue, hqueues]; exact hq, hpolicy⟩
  · simp only [slots, hslots] at hslot
    rcases List.mem_append.mp hslot with hold | hnew
    · refine (h.stays slot hold).imp (fun hin => (filedUnder_insert hrun).mpr (.inl hin)) (Or.imp_left fun hover => ?_)
      exact ⟨fun jobs' hjobs' => hover.1 jobs' (List.mem_of_mem_erase hjobs'), hover.2⟩
    · exact .inl ((filedUnder_insert hrun).mpr (.inr hnew))
  · show (filedSlots (occurrenceKey s.name s.key) (w.filed ++ inserted)).count slot ≤ 1
    rw [hslots, List.count_append]
    by_cases hnew : slot ∈ filedSlots (occurrenceKey s.name s.key) inserted
    · -- a slot this insert files was not filed before: it was empty, not over and not lost
      have hold : slot ∉ w.slots s := by
        intro hold
        rcases h.stays slot hold with hin | ⟨hpast, -⟩ | hlost
        · exact hempty slot hnew hin
        · obtain ⟨f, hf, hkey, hslot⟩ := hnamed slot hnew
          exact hpast jobs hpending f hf hkey hslot
        · exact hkept hlost
      rw [List.count_eq_zero.mpr hold, List.count_eq_one_of_mem hnodup hnew]
    · rw [List.count_eq_zero.mpr hnew, Nat.add_zero]
      exact h.once slot hkept
  · rcases h.sent p hp f hf with hin | ⟨jobs', hjobs', hfj⟩
    · exact .inl (by simp only [slots, hslots]; exact List.mem_append_left _ hin)
    · by_cases hsame : jobs' = jobs
      · have hdone := filedUnder_of_insert h.queue hdrawn hrun (hsame ▸ hfj)
        rw [forward_key hf] at hdone
        exact .inl (hfilled _ hdone)
      · exact .inr ⟨jobs', (List.mem_erase_of_ne hsame).mpr hjobs', hfj⟩
  · simp only [slots, hslots] at hslot
    rcases List.mem_append.mp hslot with hslot | hslot
    · exact h.asked slot hslot
    · obtain ⟨f, hf, hkey, rfl⟩ := hnamed slot hslot
      exact h.awaits jobs hpending f hf hkey

theorem Files.other (h : w.Files lib s) {db' : Database} {lost : List Timestamp} (hother : w.Leaves s db' lost) :
    Files lib s { w with db := db', lost := w.lost ++ lost } :=
  { h with
    allowed := hother.allowed h.allowed
    queue := hother.queue h.queue
    filled := fun slot hslot => h.filled slot (hother.fills hslot)
    stays := fun slot hslot => by
      rcases h.stays slot hslot with hin | hover | hlost
      · exact (hother.keeps slot hin).imp_right (Or.imp_right (List.mem_append_right _))
      · exact .inr (.inl hover)
      · exact .inr (.inr (List.mem_append_left _ hlost))
    once := fun slot hkept => h.once slot fun hlost => hkept (List.mem_append_left _ hlost) }

/-- One step keeps the slots filed as they are sent. -/
theorem Files.step (hrec : s.Recurs lib kind O) (h : w.Files lib s) (hstep : Step lib stringify s near w w') :
    w'.Files lib s := by
  cases hstep with
  | read stamp t rows hclock hnear hrows => exact h.read hrec hclock hrows
  | insert now jobs drawn hpending hdrawn hrun => exact h.insert hpending hdrawn hrun
  | other db' lost hother => exact h.other hother

theorem Files.run (hrec : s.Recurs lib kind O) (h : w₀.Files lib s) (hrun : Run lib stringify s near w₀ w) :
    w.Files lib s := by
  induction hrun with
  | refl => exact h
  | tail _ hstep ih => exact ih.step hrec hstep

/-- Once every pass has inserted, the slots filed are those the passes sent. -/
theorem Files.mem_slots (h : w.Files lib s) (hpending : w.pending = []) {slot : Timestamp} :
    slot ∈ w.slots s ↔ ∃ p ∈ w.passes, slot ∈ sentSlots lib s p := by
  constructor
  · exact h.asked slot
  · rintro ⟨p, hp, hslot⟩
    obtain ⟨f, hf, rfl⟩ := List.mem_map.mp hslot
    refine (h.sent p hp f hf).resolve_right ?_
    rintro ⟨jobs, hjobs, -⟩
    rw [hpending] at hjobs
    contradiction

/-- No slot is filed twice where no job was lost. -/
theorem Files.nodup (h : w.Files lib s) (hkept : w.lost = []) : (w.slots s).Nodup :=
  List.nodup_iff_count_le_one.mpr fun slot => h.once slot (by simp [hkept])

/-- The passes follow one another: each replaced the stamp of the one before it, with no earlier one, and
near enough. -/
structure Follows (near : PassRecord → PassRecord → Prop) (first : Option ℤ) (w : CronWorld) : Prop where
  stamp : w.cronOn = (w.passes.head?.map PassRecord.stamp).or first
  chain : w.passes.IsChain fun later earlier =>
    later.prior = some earlier.stamp ∧ earlier.stamp ≤ later.stamp ∧ near earlier later

theorem Start.follows (h : w.Start s) : w.Follows near w.cronOn where
  stamp := by simp [h.passes]
  chain := by simp [h.passes]

theorem Follows.step {first : Option ℤ} (h : w.Follows near first) (hstep : Step lib stringify s near w w') :
    w'.Follows near first := by
  cases hstep with
  | read stamp t rows hclock hnear hrows =>
    have hstamp := h.stamp
    refine ⟨rfl, List.isChain_cons.mpr ⟨fun last hlast => ?_, h.chain⟩⟩
    rw [hlast] at hstamp
    exact ⟨hstamp, (hclock _ hstamp).1, hnear last hlast⟩
  | insert now jobs drawn hpending hdrawn hrun => exact ⟨h.stamp, h.chain⟩
  | other db' lost hother => exact ⟨h.stamp, h.chain⟩

theorem Follows.run {first : Option ℤ} (h : w₀.Follows near first) (hrun : Run lib stringify s near w₀ w) :
    w.Follows near first := by
  induction hrun with
  | refl => exact h
  | tail _ hstep ih => exact ih.step hstep

end CronWorld

end Runs

end PgBoss
