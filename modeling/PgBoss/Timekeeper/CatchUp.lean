import PgBoss.Timekeeper.DueWindow

/-!
# Catching up on a gap

A pass of a schedule with `missed: 'once'` reads two ranges: what was missed, from the pass before it
or the schedule's creation on, up to where the due window opens, and the due window. However far
apart the passes are, the two ranges meet, and what was missed is after the claims of earlier passes:
of what those read, it has at most what came due between their claim and the time they went by.
-/

namespace PgBoss

open Recurrence Timekeeper

variable {lib : RecurrenceLibrary} {stringify : ScheduledRequest → Json} {s : Schedule} {kind : ScheduleKind} {O : Set ℤ}
variable {w w₀ : CronWorld} {p : PassRecord} {last x : ℤ}

/-- Passes any time apart. -/
def AnyGap (_earlier _later : PassRecord) : Prop := True

/-- The range a pass reads for what is due. -/
def dueRange (p : PassRecord) : Set ℤ := Set.Ioc (p.time - windowMillis) p.time

/-- The range a pass reads for what was missed. -/
def catchUpRange (s : Schedule) (p : PassRecord) : Set ℤ :=
  {x | ∃ last, p.prior = some last ∧ x ∈ Set.Ioc (max last (s.createdOn.getD last)) (p.time - windowMillis)}

/-- What the passes of a schedule with `missed: 'once'` read, send and file. -/
structure CronWorld.CatchesUp (lib : RecurrenceLibrary) (s : Schedule) (kind : ScheduleKind) (O : Set ℤ)
    (w : CronWorld) : Prop where
  /-- A pass takes over from the one before it, -/
  consecutive : w.passes.IsChain fun later earlier => later.prior = some earlier.stamp
  /-- and reads every instant since its claim in one of its ranges, from the schedule's creation on. -/
  meets : ∀ p ∈ w.passes, ∀ last, p.prior = some last → ∀ x ∈ Set.Ioc last p.time,
    (∀ c, s.createdOn = some c → c < x) ∨ p.time - windowMillis < x → (x ∈ catchUpRange s p ↔ x ∉ dueRange p)
  /-- Of what it reads for what was missed, an earlier pass has read what came due after that pass claimed and
  no later than the time it went by. -/
  reread : w.passes.Pairwise fun later earlier => ∀ x ∈ catchUpRange s later, x ∈ catchUpRange s earlier ∪ dueRange earlier →
    x ∈ Set.Ioc earlier.stamp earlier.time
  /-- It sends what is due and the latest it missed, -/
  sends : ∀ p ∈ w.passes, ∀ slot, slot ∈ sentSlots lib s p ↔ (∃ o ∈ dueAt kind O p.time, Timekeeper.throttleSlot o = slot) ∨
    ∃ x, IsGreatest {o ∈ O | o ∈ catchUpRange s p} x ∧ Timekeeper.throttleSlot x = slot
  /-- one job for a slot. -/
  oneEach : ∀ p ∈ w.passes, (sentSlots lib s p).Nodup
  /-- No slot is filed twice, unless its job left the table before it was over, -/
  once : ∀ slot ∉ w.lost, (w.slots s).count slot ≤ 1
  /-- and once all have inserted, every slot sent is filed, and no other. -/
  filed : w.pending = [] → ∀ slot, slot ∈ w.slots s ↔ ∃ p ∈ w.passes, slot ∈ sentSlots lib s p

/-- The two ranges of a pass meet where the due window opens. -/
theorem catchUpRange_iff (hprior : p.prior = some last) (hx : x ∈ Set.Ioc last p.time)
    (hcreated : (∀ c, s.createdOn = some c → c < x) ∨ p.time - windowMillis < x) :
    x ∈ catchUpRange s p ↔ x ∉ dueRange p := by
  have hdue : x ∉ dueRange p ↔ x ≤ p.time - windowMillis := by
    rw [dueRange, Set.mem_Ioc, not_and_or, not_lt, or_iff_left (not_not.mpr hx.2)]
  rw [hdue]
  constructor
  · rintro ⟨-, -, -, hopens⟩
    exact hopens
  · intro hopens
    have hafter : ∀ c, s.createdOn = some c → c < x := hcreated.resolve_right (not_lt.mpr hopens)
    refine ⟨last, hprior, max_lt hx.1 ?_, hopens⟩
    cases hon : s.createdOn with
    | none => exact hx.1
    | some c => exact hafter c hon

/-- Under the policy `once`, what a pass owes is the latest occurrence of its catch-up range. -/
theorem mem_missedAt (honce : missedPolicy s.options = .once) :
    x ∈ missedAt s O p.prior (p.time - windowMillis) ↔ IsGreatest {o ∈ O | o ∈ catchUpRange s p} x := by
  cases hprior : p.prior with
  | none =>
    constructor
    · exact fun ⟨_, last, hlast, _⟩ => nomatch hlast
    · rintro ⟨⟨-, last, hlast, -⟩, -⟩
      exact nomatch hprior.symm.trans hlast
  | some last =>
    have hrange : {o ∈ O | o ∈ catchUpRange s p} =
        {o ∈ O | o ∈ Set.Ioc (max last (s.createdOn.getD last)) (p.time - windowMillis)} := by
      refine Set.ext fun o => and_congr_right fun _ => ⟨?_, fun ho => ⟨last, hprior, ho⟩⟩
      rintro ⟨last', hlast', ho⟩
      obtain rfl := Option.some.inj (hprior.symm.trans hlast')
      exact ho
    rw [hrange]
    constructor
    · rintro ⟨-, last', hlast', hlatest⟩
      obtain rfl := Option.some.inj hlast'
      exact hlatest
    · exact fun hlatest => ⟨honce, last, rfl, hlatest⟩

/-- A later pass has a later stamp before it. -/
theorem CronWorld.Follows.prior_ge {near : PassRecord → PassRecord → Prop} {first : Option ℤ} (h : w.Follows near first) :
    w.passes.Pairwise fun later earlier => ∀ last, later.prior = some last → earlier.stamp ≤ last := by
  have hchain := h.chain
  generalize w.passes = passes at hchain
  induction passes with
  | nil => exact .nil
  | cons p passes ih =>
    obtain ⟨hhead, hrest⟩ := List.isChain_cons.mp hchain
    refine List.pairwise_cons.mpr ⟨fun q hq last hlast => ?_, ih hrest⟩
    cases passes with
    | nil => contradiction
    | cons earlier passes =>
      obtain ⟨hprior, -⟩ := hhead earlier rfl
      obtain rfl := Option.some.inj (hprior.symm.trans hlast)
      have hsorted : (earlier :: passes).Pairwise fun later earlier => earlier.stamp ≤ later.stamp :=
        (List.isChain_iff_pairwise (R := fun later earlier : PassRecord => earlier.stamp ≤ later.stamp)).mp
          (hrest.imp fun _ _ hnext => hnext.2.1)
      rcases List.mem_cons.mp hq with rfl | hq
      · exact le_rfl
      · exact (List.pairwise_cons.mp hsorted).1 q hq

/-- What was missed is after the claim of an earlier pass. -/
theorem catchUpRange_reread {later earlier : PassRecord} (h : ∀ last, later.prior = some last → earlier.stamp ≤ last)
    (hx : x ∈ catchUpRange s later) (hread : x ∈ catchUpRange s earlier ∪ dueRange earlier) :
    x ∈ Set.Ioc earlier.stamp earlier.time := by
  obtain ⟨last, hlast, hafter, -⟩ := hx
  refine ⟨(h last hlast).trans_lt ((le_max_left _ _).trans_lt hafter), ?_⟩
  rcases hread with ⟨-, -, -, hbefore⟩ | ⟨-, hbefore⟩
  · simp only [windowMillis, occurrenceWindowSeconds] at hbefore
    omega
  · exact hbefore

/-- Passes any time apart catch up on the gaps between them. -/
theorem catchesUp_run (hrec : s.Recurs lib kind O) (honce : missedPolicy s.options = .once) (hstart : w₀.Start s)
    (hrun : CronWorld.Run lib stringify s AnyGap w₀ w) : w.CatchesUp lib s kind O := by
  have hfiles := hstart.files.run hrec hrun
  have hfollows : w.Follows AnyGap w₀.cronOn := hstart.follows.run hrun
  refine ⟨hfollows.chain.imp fun _ _ hnext => hnext.1, fun p _ last hprior x hx hcreated =>
    catchUpRange_iff hprior hx hcreated, ?_, fun p _ slot => ?_, fun p _ => sentSlots_nodup hrec p, hfiles.once,
    fun hpending slot => hfiles.mem_slots hpending⟩
  · exact hfollows.prior_ge.imp fun h x => catchUpRange_reread h
  · simp only [mem_sentSlots hrec, mem_missedAt honce, or_and_right, exists_or]

section Gaps

/-- A schedule of every half minute with `missed: 'once'`. -/
def halfMinutelyOnce : Schedule := { halfMinutely with options := some { missed := some "once" } }

/-- The same, created 100 seconds after a pass. -/
def createdInGap : Schedule := { halfMinutelyOnce with createdOn := some 100000 }

theorem createdInGap_recurs : createdInGap.Recurs halfMinutes .cron {o | o % 30000 = 0} :=
  ⟨by decide, halfMinutes_readsCron _ _, .inl rfl⟩

/-- The tables a pass has stamped, before the schedule was created. -/
def stampedWorld : CronWorld := { startedWorld with cronOn := some 0 }

theorem stampedWorld_start : stampedWorld.Start createdInGap where
  allowed := ⟨by decide, by decide⟩
  queue := ⟨_, rfl, rfl⟩
  empty := Set.eq_empty_iff_forall_notMem.mpr fun _ ⟨_, hj, _⟩ => nomatch hj
  passes := rfl
  pending := rfl
  filed := rfl

/-- A run of passes any time apart, for a schedule of a cron expression with `missed: 'once'`. -/
structure GapRun (lib : RecurrenceLibrary) (s : Schedule) (O : Set ℤ) (w₀ w : CronWorld) : Prop where
  recurs : s.Recurs lib .cron O
  once : missedPolicy s.options = .once
  start : w₀.Start s
  run : CronWorld.Run lib (fun _ => "\x7b\x7d") s AnyGap w₀ w

/-- What a pass inserts for the minute `slot` of these schedules. -/
def onceJob (slot : Timestamp) : ForwardedJob where
  data := { name := "tick", key := "", data := none, options := some { missed := some "once" }, slot }
  singletonKey := "tick__"
  singletonSlot := slot

/-- A pass claims at `stamp`, takes the time for `t` and finds `slots`. -/
theorem gap_read (lib : RecurrenceLibrary) (w : CronWorld) (stamp t : ℤ) (slots : List Timestamp) (hamong : s.Among [s])
    (hclock : ∀ c, w.cronOn = some c → c ≤ stamp ∧ c ≤ t) (hsome : slots ≠ [])
    (hsent : (cron lib t w.cronOn [s]).scheduled = slots.map onceJob) :
    CronWorld.Step lib (fun _ => "\x7b\x7d") s AnyGap w { w with
      cronOn := some stamp
      passes := ⟨w.cronOn, stamp, t⟩ :: w.passes
      pending := w.pending ++ [slots.map onceJob] } := by
  have hstep : CronWorld.Step lib (fun _ => "\x7b\x7d") s AnyGap w _ := .read stamp t [s] hclock (fun _ _ => trivial) hamong
  rwa [hsent, if_neg (List.map_eq_nil_iff.not.mpr hsome)] at hstep

/-- Two passes five minutes apart, of which the second takes the time a second after its claim and inserts first. -/
theorem createdInGap_run : ∃ w : CronWorld, GapRun halfMinutes createdInGap {o | o % 30000 = 0} stampedWorld w ∧
    w.passes = [⟨some 300000, 600000, 601000⟩, ⟨some 0, 300000, 300000⟩] ∧
    w.slots createdInGap = [540000000, 600000000, 240000000, 300000000] := by
  have hamong : createdInGap.Among [createdInGap] := ⟨by decide, by decide, by decide⟩
  have hfirst := Relation.ReflTransGen.single (gap_read halfMinutes stampedWorld 300000 300000 [240000000, 300000000] hamong
    (fun c hc => by cases hc; decide) (by decide) (by decide))
  have hsecond := hfirst.tail (gap_read halfMinutes _ 600000 601000 [540000000, 600000000] hamong
    (fun c hc => by cases hc; decide) (by decide) (by decide))
  have hlater := hsecond.tail (.insert 0 ([540000000, 600000000].map onceJob) [1, 2] (by decide) ⟨rfl, by decide, by decide⟩ rfl)
  have hearlier := hlater.tail (.insert 0 ([240000000, 300000000].map onceJob) [3, 4] (by decide) ⟨rfl, by decide, by decide⟩ rfl)
  exact ⟨_, ⟨createdInGap_recurs, by decide, stampedWorld_start, hearlier⟩, rfl, by decide⟩

/-- The theorem over that run: each pass sends the latest occurrence it missed and the one that is due, and no slot is
filed twice. -/
theorem catchesUp_createdInGap : ∃ w : CronWorld, w.passes = [⟨some 300000, 600000, 601000⟩, ⟨some 0, 300000, 300000⟩] ∧
    w.CatchesUp halfMinutes createdInGap .cron {o | o % 30000 = 0} ∧
    w.slots createdInGap = [540000000, 600000000, 240000000, 300000000] := by
  obtain ⟨w, h, hpasses, hslots⟩ := createdInGap_run
  exact ⟨w, hpasses, catchesUp_run h.recurs h.once h.start h.run, hslots⟩

/-- A pass takes the time a second after its claim, and the next comes five minutes later. -/
theorem lateReading_run : ∃ w : CronWorld, GapRun halfMinutes halfMinutelyOnce {o | o % 30000 = 0} startedWorld w ∧
    w.passes = [⟨some 0, 300000, 300000⟩, ⟨none, 0, 1000⟩] := by
  have hamong : halfMinutelyOnce.Among [halfMinutelyOnce] := ⟨by decide, by decide, by decide⟩
  have hfirst := Relation.ReflTransGen.single (gap_read halfMinutes startedWorld 0 1000 [0] hamong nofun (by decide) (by decide))
  have hsecond := hfirst.tail (gap_read halfMinutes _ 300000 300000 [240000000, 300000000] hamong
    (fun c hc => by cases hc; decide) (by decide) (by decide))
  exact ⟨_, ⟨⟨by decide, halfMinutes_readsCron _ _, .inl rfl⟩, by decide, startedWorld_start, hsecond⟩, rfl⟩

/-- A library that reads every expression as one of the first two half minutes of every thirtieth day. -/
def thirtiethDays : RecurrenceLibrary where
  parseCron _ _ := .ok ⟨true, fun ref =>
    [(ref - 1) / 2592000000 * 2592000000 + if (ref - 1) % 2592000000 < 30000 then 0 else 30000], "Out of the timespan range"⟩
  parseRule _ _ := .error "Invalid RRULE"
  getUTCOffset _ _ := 0

/-- The occurrences it reads. -/
def onThirtiethDays : Set ℤ := {o | o % 2592000000 = 0 ∨ o % 2592000000 = 30000}

theorem thirtiethDays_readsCron (expression tz : String) : thirtiethDays.ReadsCron expression tz onThirtiethDays := by
  refine ⟨⟨_, onThirtiethDays, rfl, ⟨?_, fun ref => List.pairwise_singleton _ _, ?_⟩, ?_, ?_, ?_⟩, fun _ => rfl⟩
  · intro ref o ho
    obtain rfl := List.mem_singleton.mp ho
    simp only [onThirtiethDays, Set.mem_ofPred_eq]
    split <;> omega
  · intro ref a ha o ho hle hlt
    obtain rfl := List.mem_singleton.mp ha
    have hmod : o % 2592000000 = 0 ∨ o % 2592000000 = 30000 := ho
    refine List.mem_singleton.mpr ?_
    split_ifs at hle ⊢ <;> omega
  · refine ⟨{m | m % 43200 = 0}, {0, 30000}, fun o => ?_⟩
    simp only [onThirtiethDays, windowMillis, occurrenceWindowSeconds, Set.mem_ofPred_eq, Set.mem_insert_iff,
      Set.mem_singleton_iff]
    omega
  · refine fun t => ⟨_, List.mem_singleton_self _, ?_, .inl rfl⟩
    simp only [onThirtiethDays, Set.mem_ofPred_eq]
    split <;> omega
  · exact Set.ext fun o => ⟨fun ho => ⟨ho, .inl rfl⟩, fun ho => ho.1⟩

/-- A pass sends the first occurrence of a minute. A week later the maintenance deletes the job, and a day after
that a pass catches up on the second. -/
theorem refiled_run : ∃ w : CronWorld, GapRun thirtiethDays halfMinutelyOnce onThirtiethDays startedWorld w ∧
    w.slots halfMinutelyOnce = [0, 0] := by
  have hrecurs : halfMinutelyOnce.Recurs thirtiethDays .cron onThirtiethDays :=
    ⟨by decide, thirtiethDays_readsCron _ _, .inl rfl⟩
  have hamong : halfMinutelyOnce.Among [halfMinutelyOnce] := ⟨by decide, by decide, by decide⟩
  have hread := Relation.ReflTransGen.single (gap_read thirtiethDays startedWorld 10000 10000 [0] hamong nofun (by decide) (by decide))
  have hfiled := hread.tail (.insert 0 ([0].map onceJob) [1] (by decide) ⟨rfl, by decide, by decide⟩ rfl)
  -- the job is deleted, and with it the slot is empty
  have hdeleted := hfiled.tail (.other startedWorld.db [0]
    { fills := fun slot ⟨_, hj, _⟩ => nomatch hj
      keeps := fun slot hslot => .inr (.inr ((startedWorld_start.files.run hrecurs hfiled).filled slot hslot))
      queue := fun _ => ⟨_, rfl, rfl⟩
      allowed := fun _ => ⟨by decide, by decide⟩ })
  have hmissed := hdeleted.tail (gap_read thirtiethDays _ 691200000 691200000 [0] hamong
    (fun c hc => by cases hc; decide) (by decide) (by decide))
  have hrefiled := hmissed.tail (.insert 0 ([0].map onceJob) [2] (by decide) ⟨rfl, by decide, by decide⟩ rfl)
  exact ⟨_, ⟨hrecurs, by decide, startedWorld_start, hrefiled⟩, by decide⟩

/-- An occurrence of the gap from before the creation is in neither range of the pass. An instant between a
claim and the time its pass went by is in a range of that pass and in one of the next. And a slot both
passes send is filed twice, where its job is gone when the second inserts. -/
theorem gap_unevenly_read :
    (∃ w : CronWorld, GapRun halfMinutes createdInGap {o | o % 30000 = 0} stampedWorld w ∧
      ∃ p ∈ w.passes, p.prior = some 0 ∧ 30000 ∈ Set.Ioc 0 p.time ∧ 30000 ∉ catchUpRange createdInGap p ∧
        30000 ∉ dueRange p ∧ Timekeeper.throttleSlot 30000 ∉ sentSlots halfMinutes createdInGap p) ∧
    (∃ w : CronWorld, GapRun halfMinutes halfMinutelyOnce {o | o % 30000 = 0} startedWorld w ∧
      ∃ later earlier, w.passes = [later, earlier] ∧ 500 ∈ catchUpRange halfMinutelyOnce later ∧ 500 ∈ dueRange earlier) ∧
    ∃ w : CronWorld, GapRun thirtiethDays halfMinutelyOnce onThirtiethDays startedWorld w ∧
      (w.slots halfMinutelyOnce).count 0 = 2 := by
  obtain ⟨created, hcreated, hpasses, -⟩ := createdInGap_run
  obtain ⟨late, hlate, hlatePasses⟩ := lateReading_run
  obtain ⟨refiled, hrefiled, hslots⟩ := refiled_run
  refine ⟨⟨created, hcreated, ⟨some 0, 300000, 300000⟩, ?_, rfl, by decide, ?_, fun hdue => absurd hdue.1 (by decide), by decide⟩,
    ⟨late, hlate, _, _, hlatePasses, ⟨0, rfl, by decide⟩, ⟨by decide, by decide⟩⟩, refiled, hrefiled, by rw [hslots]; rfl⟩
  · rw [hpasses]
    exact List.mem_cons_of_mem _ (List.mem_singleton_self _)
  · rintro ⟨last, hlast, hafter, -⟩
    obtain rfl := Option.some.inj hlast
    exact absurd hafter (by decide)

end Gaps

end PgBoss
