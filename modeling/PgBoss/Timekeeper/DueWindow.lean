import PgBoss.Timekeeper.Filing

/-!
# The due window over a run of passes

Passes no further apart than the due window is wide leave no instant out. A pass reads every
occurrence of a rule in its window, but of a cron expression the latest only, and relies on a pass
before it for those of an earlier minute. The first pass has none before it.
-/

namespace PgBoss

open Recurrence Timekeeper

variable {lib : RecurrenceLibrary} {stringify : ScheduledRequest → Json} {s : Schedule} {kind : ScheduleKind} {O : Set ℤ}
variable {w w₀ : CronWorld} {first last p : PassRecord} {o t : ℤ}

/-- A pass reads the time no earlier than the pass before it, and within the width of the due window of when
that one did and claimed. -/
def Spaced (earlier later : PassRecord) : Prop :=
  earlier.time ≤ later.time ∧ later.time ≤ earlier.time + windowMillis ∧ later.time ≤ earlier.stamp + windowMillis

/-- The occurrences in the due window of a pass at `t` fall in one minute. -/
def OneMinute (O : Set ℤ) (t : ℤ) : Prop :=
  ∀ o ∈ O, ∀ o' ∈ O, o ∈ Set.Ioc (t - windowMillis) t → o' ∈ Set.Ioc (t - windowMillis) t →
    Timekeeper.throttleSlot o = Timekeeper.throttleSlot o'

/-- The slots that were filed, each once, are those of the occurrences from the first pass's window on. -/
structure CronWorld.FiledFrom (s : Schedule) (O : Set ℤ) (first last : ℤ) (w : CronWorld) : Prop where
  exactly : ∀ slot, slot ∈ w.slots s ↔
    ∃ o ∈ O, o ∈ Set.Ioc (first - windowMillis) last ∧ Timekeeper.throttleSlot o = slot
  once : (w.slots s).Nodup

namespace CronWorld.Follows

variable (h : w.Follows Spaced w₀.cronOn)
include h

/-- The instants the passes read the clock at follow one another. -/
theorem times_chain : (w.passes.map PassRecord.time).IsChain fun later earlier =>
    earlier ≤ later ∧ later ≤ earlier + windowMillis :=
  (List.isChain_map _).mpr (h.chain.imp fun _ _ hnext => ⟨hnext.2.2.1, hnext.2.2.2.1⟩)

theorem bounds (hfirst : w.passes.getLast? = some first) (hlast : w.passes.head? = some last) (hp : p ∈ w.passes) :
    first.time ≤ p.time ∧ p.time ≤ last.time := by
  refine reading_bounds (h.times_chain.imp fun _ _ hnext => hnext.1) ?_ ?_ p.time (List.mem_map_of_mem hp)
  · rw [List.getLast?_map, hfirst, Option.map_some]
  · rw [List.head?_map, hlast, Option.map_some]

/-- Every instant from the first window on is in the window of a pass. -/
theorem exists_pass (hfirst : w.passes.getLast? = some first) (hlast : w.passes.head? = some last)
    (hafter : first.time - windowMillis < o) (hbefore : o ≤ last.time) :
    ∃ p ∈ w.passes, o ∈ Set.Ioc (p.time - windowMillis) p.time := by
  have htfirst : (w.passes.map PassRecord.time).getLast? = some first.time := by
    rw [List.getLast?_map, hfirst, Option.map_some]
  have htlast : (w.passes.map PassRecord.time).head? = some last.time := by
    rw [List.head?_map, hlast, Option.map_some]
  obtain ⟨t, ht, hin⟩ := exists_reading (h.times_chain.imp fun _ _ hnext => hnext.2) htfirst htlast hafter hbefore
  obtain ⟨p, hp, rfl⟩ := List.mem_map.mp ht
  exact ⟨p, hp, hin⟩

/-- A pass has nothing to catch up on, unless the first has. -/
theorem missedAt_empty (hfirst : w.passes.getLast? = some first)
    (hgap : missedAt s O first.prior (first.time - windowMillis) = ∅) (hp : p ∈ w.passes) :
    missedAt s O p.prior (p.time - windowMillis) = ∅ := by
  have hspaced : p = first ∨ ∃ earlier, p.prior = some earlier ∧ p.time ≤ earlier + windowMillis := by
    have hchain := h.chain
    generalize w.passes = passes at hchain hfirst hp
    induction passes with
    | nil => contradiction
    | cons q passes ih =>
      obtain ⟨hhead, hrest⟩ := List.isChain_cons.mp hchain
      cases passes with
      | nil => exact .inl ((List.mem_singleton.mp hp).trans (Option.some.inj hfirst))
      | cons earlier passes =>
        rw [List.getLast?_cons_cons] at hfirst
        rcases List.mem_cons.mp hp with rfl | hp
        · obtain ⟨hprior, -, -, -, hnear⟩ := hhead earlier rfl
          exact .inr ⟨earlier.stamp, hprior, hnear⟩
        · exact ih hrest hfirst hp
  rcases hspaced with rfl | ⟨earlier, hprior, hnear⟩
  · exact hgap
  · refine Set.eq_empty_iff_forall_notMem.mpr ?_
    rintro x ⟨-, last', hlast', hlatest⟩
    obtain rfl := Option.some.inj (hprior.symm.trans hlast')
    have hafter := (le_max_left _ _).trans_lt hlatest.1.2.1
    have hbefore := hlatest.1.2.2
    omega

end CronWorld.Follows

/-- Of a cron expression, the latest occurrence is due in a window that holds any. -/
theorem exists_due_cron {expression tz : String} (h : lib.ReadsCron expression tz O) (ho : o ∈ O)
    (hin : o ∈ Set.Ioc (t - windowMillis) t) : ∃ x ∈ dueAt .cron O t, Latest O t x ∧ o ≤ x := by
  obtain ⟨-, x, -, -, hlatest⟩ := h.latest t
  have hlater : o ≤ x := hlatest.ge ho hin.2
  exact ⟨x, ⟨hlatest, hin.1.trans_le hlater⟩, hlatest, hlater⟩

/-- Of a cron expression, an occurrence is due in a minute's name in every window that holds the minute's first. -/
theorem exists_due_minute {expression tz : String} (h : lib.ReadsCron expression tz O) (ho : o ∈ O)
    (hfirst : ∀ x ∈ O, x / windowMillis = o / windowMillis → o ≤ x) (hin : o ∈ Set.Ioc (t - windowMillis) t) :
    ∃ x ∈ dueAt .cron O t, x / windowMillis = o / windowMillis := by
  obtain ⟨x, hdue, hlatest, -⟩ := exists_due_cron h ho hin
  have hafter := hin.1
  exact ⟨x, hdue, h.patterned.latest_slot (by decide) ho hfirst hin.2 (by omega) hlatest⟩

namespace CronWorld.Follows

variable (h : w.Follows Spaced w₀.cronOn)
include h

/-- Over the run, every minute that holds an occurrence is read, but for those the first pass passes over. -/
theorem exists_due (hreads : lib.Reads s.cron kind s.timezone O) (hfirst : w.passes.getLast? = some first)
    (hlast : w.passes.head? = some last) (hminute : kind = .rrule ∨ OneMinute O first.time) (ho : o ∈ O)
    (hin : o ∈ Set.Ioc (first.time - windowMillis) last.time) :
    ∃ p ∈ w.passes, ∃ x ∈ dueAt kind O p.time, Timekeeper.throttleSlot x = Timekeeper.throttleSlot o := by
  cases kind with
  | rrule =>
    obtain ⟨p, hp, hwindow⟩ := h.exists_pass hfirst hlast hin.1 hin.2
    exact ⟨p, hp, o, ⟨ho, hwindow⟩, rfl⟩
  | cron =>
    obtain ⟨o₁, ho₁, hslot, hle, hleast⟩ := exists_first_member (w := windowMillis) (by decide) ho
    by_cases hwindow : first.time - windowMillis < o₁
    · -- a pass finds the minute's first occurrence in its window
      obtain ⟨p, hp, hinp⟩ := h.exists_pass hfirst hlast hwindow (hle.trans hin.2)
      obtain ⟨x, hdue, hx⟩ := exists_due_minute hreads ho₁ (fun y hy hyo => hleast y hy (hyo.trans hslot)) hinp
      exact ⟨p, hp, x, hdue, throttleSlot_eq_iff.mpr (hx.trans hslot)⟩
    · -- the minute began before the first window, so the first pass is the one to read it
      have hafter := hin.1
      have hend : o ≤ first.time := by
        simp only [windowMillis, occurrenceWindowSeconds] at hslot hwindow
        omega
      obtain ⟨x, hdue, hlatest, hox⟩ := exists_due_cron hreads ho ⟨hafter, hend⟩
      refine ⟨first, List.mem_of_getLast? hfirst, x, hdue, ?_⟩
      have hcron : ScheduleKind.cron ≠ .rrule := by decide
      exact hminute.resolve_left hcron x hlatest.mem o ho ⟨hafter.trans_le hox, hlatest.le⟩ ⟨hafter, hend⟩

end CronWorld.Follows

/-- What the passes send from the first window on, once all have inserted, is what is filed. -/
theorem CronWorld.slots_iff (hrec : s.Recurs lib kind O) (hstart : w₀.Start s)
    (hrun : CronWorld.Run lib stringify s Spaced w₀ w) (hpending : w.pending = [])
    (hfirst : w.passes.getLast? = some first) (hgap : missedAt s O first.prior (first.time - windowMillis) = ∅)
    {slot : Timestamp} :
    slot ∈ w.slots s ↔ ∃ p ∈ w.passes, ∃ x ∈ dueAt kind O p.time, Timekeeper.throttleSlot x = slot := by
  have hfiles := hstart.files.run hrec hrun
  have hfollows : w.Follows Spaced w₀.cronOn := hstart.follows.run hrun
  rw [hfiles.mem_slots hpending]
  refine exists_congr fun p => and_congr_right fun hp => ?_
  simp only [mem_sentSlots hrec, hfollows.missedAt_empty hfirst hgap hp, Set.mem_empty_iff_false, or_false]

/-- Passes no further apart than the due window file every minute that holds an occurrence from the first
window on, each once if no job leaves early, of a rule, and of a cron expression where the first window's
fall in one minute. -/
theorem filedFrom_iff (hrec : s.Recurs lib kind O) (hstart : w₀.Start s)
    (hrun : CronWorld.Run lib stringify s Spaced w₀ w) (hpending : w.pending = []) (hkept : w.lost = [])
    (hfirst : w.passes.getLast? = some first) (hlast : w.passes.head? = some last)
    (hgap : missedAt s O first.prior (first.time - windowMillis) = ∅) :
    w.FiledFrom s O first.time last.time ↔ kind = .rrule ∨ OneMinute O first.time := by
  have hfollows : w.Follows Spaced w₀.cronOn := hstart.follows.run hrun
  have hslots : ∀ slot, slot ∈ w.slots s ↔ _ := fun slot =>
    CronWorld.slots_iff hrec hstart hrun hpending hfirst hgap
  constructor
  · intro hfiled
    cases hkind : kind with
    | rrule => exact .inl rfl
    | cron =>
      subst hkind
      -- what is read later falls in no earlier minute than the latest occurrence of the first window
      have hlatest : ∀ o ∈ O, o ∈ Set.Ioc (first.time - windowMillis) first.time → ∀ x, Latest O first.time x →
          o / windowMillis = x / windowMillis := by
        intro o ho hin x hx
        have hbound := hfollows.bounds hfirst hlast (List.mem_of_getLast? hfirst)
        obtain ⟨p, hp, y, hdue, hy⟩ := (hslots _).mp ((hfiled.exactly (Timekeeper.throttleSlot o)).mpr
          ⟨o, ho, ⟨hin.1, hin.2.trans hbound.2⟩, rfl⟩)
        have hpfirst := (hfollows.bounds hfirst hlast hp).1
        have hyx : x ≤ y := hdue.1.ge hx.mem (hx.le.trans hpfirst)
        refine le_antisymm (Int.ediv_le_ediv (by decide) (hx.ge ho hin.2)) ?_
        rw [← throttleSlot_eq_iff.mp hy]
        exact Int.ediv_le_ediv (by decide) hyx
      refine .inr fun o ho o' ho' hin hin' => ?_
      obtain ⟨x, -, hx, -⟩ := exists_due_cron hrec.reads ho hin
      exact throttleSlot_eq_iff.mpr ((hlatest o ho hin x hx).trans (hlatest o' ho' hin' x hx).symm)
  · refine fun hminute => ⟨fun slot => ?_, (hstart.files.run hrec hrun).nodup hkept⟩
    rw [hslots]
    constructor
    · rintro ⟨p, hp, x, hdue, rfl⟩
      obtain ⟨hx, hafter, hbefore⟩ := dueAt_mem hdue
      obtain ⟨hpfirst, hplast⟩ := hfollows.bounds hfirst hlast hp
      exact ⟨x, hx, ⟨by omega, hbefore.trans hplast⟩, rfl⟩
    · rintro ⟨o, ho, hin, rfl⟩
      exact hfollows.exists_due hrec.reads hfirst hlast hminute ho hin

section HalfMinutes

/-- A library that reads every expression as one of every half minute. -/
def halfMinutes : RecurrenceLibrary where
  parseCron _ _ := .ok ⟨true, fun ref => [(ref - 1) / 30000 * 30000], "Out of the timespan range"⟩
  parseRule _ _ := .error "Invalid RRULE"
  getUTCOffset _ _ := 0

/-- A schedule of every half minute. -/
def halfMinutely : Schedule where
  name := "tick"
  key := ""
  kind := .cron
  cron := "0,30 * * * * *"
  timezone := "UTC"

theorem halfMinutes_readsCron (expression tz : String) : halfMinutes.ReadsCron expression tz {o | o % 30000 = 0} := by
  refine ⟨⟨_, {o | o % 30000 = 0}, rfl, ⟨?_, ?_, ?_⟩, ?_, ?_, ?_⟩, fun _ => rfl⟩
  · intro ref o ho
    obtain rfl := List.mem_singleton.mp ho
    exact ⟨Int.mul_emod_left _ _, by omega⟩
  · exact fun ref => List.pairwise_singleton _ _
  · intro ref a ha o ho hle hlt
    obtain rfl := List.mem_singleton.mp ha
    have hmod : o % 30000 = 0 := ho
    exact List.mem_singleton.mpr (by omega)
  · refine ⟨Set.univ, {0, 30000}, fun o => ?_⟩
    simp only [windowMillis, occurrenceWindowSeconds, Set.mem_ofPred_eq, Set.mem_univ, true_and, Set.mem_insert_iff,
      Set.mem_singleton_iff]
    omega
  · exact fun t => ⟨_, List.mem_singleton_self _, Int.mul_emod_left _ _, .inl rfl⟩
  · exact Set.ext fun o => ⟨fun ho => ⟨ho, .inl rfl⟩, fun ho => ho.1⟩

theorem halfMinutely_recurs : halfMinutely.Recurs halfMinutes .cron {o | o % 30000 = 0} :=
  ⟨by decide, halfMinutes_readsCron _ _, .inl rfl⟩

/-- The send-it queue. -/
def sendItQueue : Queue where
  name := sendIt
  policy := .standard
  retryLimit := 2
  retryDelay := 0
  retryBackoff := false
  retryDelayMax := none
  expireSeconds := 900
  retentionSeconds := 1209600
  deletionSeconds := 604800
  deadLetter := none
  heartbeatSeconds := none

/-- The tables after `start()`, without a pass yet. -/
def startedWorld : CronWorld where
  db := { queues := [sendItQueue] }

theorem startedWorld_start : startedWorld.Start s where
  allowed := ⟨by decide, by decide⟩
  queue := ⟨_, rfl, rfl⟩
  empty := Set.eq_empty_iff_forall_notMem.mpr fun _ ⟨_, hj, _⟩ => nomatch hj
  passes := rfl
  pending := rfl
  filed := rfl

theorem halfMinutely_among : halfMinutely.Among [halfMinutely] := ⟨by decide, by decide, by decide⟩

/-- What a pass inserts for the minute `slot`. -/
def halfMinutelyJob (slot : Timestamp) : ForwardedJob where
  data := { name := "tick", key := "", data := none, options := none, slot }
  singletonKey := "tick__"
  singletonSlot := slot

/-- A pass at `t` finds `slot`. -/
theorem halfMinutely_read (w : CronWorld) (t : ℤ) (slot : Timestamp) (hclock : ∀ c, w.cronOn = some c → c ≤ t)
    (hnear : ∀ last, w.passes.head? = some last → Spaced last ⟨w.cronOn, t, t⟩)
    (hsent : (cron halfMinutes t w.cronOn [halfMinutely]).scheduled = [halfMinutelyJob slot]) :
    CronWorld.Step halfMinutes (fun _ => "\x7b\x7d") halfMinutely Spaced w { w with
      cronOn := some t
      passes := ⟨w.cronOn, t, t⟩ :: w.passes
      pending := w.pending ++ [[halfMinutelyJob slot]] } := by
  have hstep : CronWorld.Step halfMinutes (fun _ => "\x7b\x7d") halfMinutely Spaced w _ :=
    .read t t [halfMinutely] (fun c hc => ⟨hclock c hc, hclock c hc⟩) hnear halfMinutely_among
  rwa [hsent, if_neg (List.cons_ne_nil _ _)] at hstep

/-- A first pass at `t` that finds `slot`, once it has inserted. -/
theorem halfMinutely_run (t : ℤ) (slot : Timestamp)
    (hsent : (cron halfMinutes t none [halfMinutely]).scheduled = [halfMinutelyJob slot]) :
    ∃ w : CronWorld, CronWorld.Run halfMinutes (fun _ => "\x7b\x7d") halfMinutely Spaced startedWorld w ∧
      w.pending = [] ∧ w.lost = [] ∧ w.passes = [⟨none, t, t⟩] ∧ w.slots halfMinutely = [slot] := by
  refine ⟨_, (Relation.ReflTransGen.single (halfMinutely_read startedWorld t slot nofun nofun hsent)).tail
    (.insert 0 [halfMinutelyJob slot] [1] List.mem_cons_self ⟨rfl, by decide, fun j hj => absurd hj List.not_mem_nil⟩ rfl),
    ?_, rfl, rfl, rfl⟩
  show List.erase [[halfMinutelyJob slot]] [halfMinutelyJob slot] = []
  exact List.erase_cons_head _ _

/-- The first pass reads the latest of two occurrences of different minutes, and no other pass reads the other. -/
theorem halfMinute_passedOver : ∃ w : CronWorld,
    halfMinutely.Recurs halfMinutes .cron {o | o % 30000 = 0} ∧ startedWorld.Start halfMinutely ∧
    CronWorld.Run halfMinutes (fun _ => "\x7b\x7d") halfMinutely Spaced startedWorld w ∧ w.pending = [] ∧ w.lost = [] ∧
    w.passes = [⟨none, 70000, 70000⟩] ∧ ¬ w.FiledFrom halfMinutely {o | o % 30000 = 0} 70000 70000 := by
  obtain ⟨w, hrun, hpending, hkept, hpasses, hslots⟩ := halfMinutely_run 70000 60000000 (by decide)
  refine ⟨w, halfMinutely_recurs, startedWorld_start, hrun, hpending, hkept, hpasses, fun hfiled => ?_⟩
  have hslot := (hfiled.exactly 0).mpr ⟨30000, by decide, by decide, rfl⟩
  rw [hslots] at hslot
  exact absurd hslot (by decide)

/-- Three passes, of which the second inserts before the first, and the first only after the third has read. -/
theorem halfMinutely_delayed : ∃ w : CronWorld,
    CronWorld.Run halfMinutes (fun _ => "\x7b\x7d") halfMinutely Spaced startedWorld w ∧ w.pending = [] ∧ w.lost = [] ∧
    w.passes = [⟨some 90000, 120000, 120000⟩, ⟨some 45000, 90000, 90000⟩, ⟨none, 45000, 45000⟩] := by
  have hfirst := Relation.ReflTransGen.single (halfMinutely_read startedWorld 45000 0 nofun nofun (by decide))
  have hsecond := hfirst.tail (halfMinutely_read _ 90000 60000000 (fun c hc => by cases hc; decide)
    (fun last hlast => by cases hlast; exact ⟨by decide, by decide, by decide⟩) (by decide))
  have hearly := hsecond.tail (.insert 0 [halfMinutelyJob 60000000] [1] (by decide) ⟨rfl, by decide, by decide⟩ rfl)
  have hthird := hearly.tail (halfMinutely_read _ 120000 120000000 (fun c hc => by cases hc; decide)
    (fun last hlast => by cases hlast; exact ⟨by decide, by decide, by decide⟩) (by decide))
  have hlate := hthird.tail (.insert 0 [halfMinutelyJob 0] [2] (by decide) ⟨rfl, by decide, by decide⟩ rfl)
  exact ⟨_, hlate.tail (.insert 0 [halfMinutelyJob 120000000] [3] (by decide) ⟨rfl, by decide, by decide⟩ rfl), by decide, rfl, rfl⟩

/-- The theorem over that run: the first window holds occurrences of one minute only. -/
theorem filedFrom_halfMinutely : ∃ w : CronWorld,
    CronWorld.Run halfMinutes (fun _ => "\x7b\x7d") halfMinutely Spaced startedWorld w ∧
    w.passes = [⟨some 90000, 120000, 120000⟩, ⟨some 45000, 90000, 90000⟩, ⟨none, 45000, 45000⟩] ∧
    w.FiledFrom halfMinutely {o | o % 30000 = 0} 45000 120000 := by
  obtain ⟨w, hrun, hpending, hkept, hpasses⟩ := halfMinutely_delayed
  have hgap : missedAt halfMinutely {o | o % 30000 = 0} none (45000 - windowMillis) = ∅ :=
    Set.eq_empty_iff_forall_notMem.mpr fun _ hx => nomatch hx.1
  have hminute : OneMinute {o | o % 30000 = 0} 45000 := by
    intro o ho o' ho' hin hin'
    simp only [windowMillis, occurrenceWindowSeconds, Set.mem_Ioc, Set.mem_ofPred_eq] at ho ho' hin hin'
    rw [throttleSlot_eq_iff, windowMillis, occurrenceWindowSeconds]
    omega
  refine ⟨w, hrun, hpasses, ?_⟩
  exact (filedFrom_iff halfMinutely_recurs startedWorld_start hrun hpending hkept (by rw [hpasses]; rfl) (by rw [hpasses]; rfl)
    hgap).mpr (.inr hminute)

end HalfMinutes

end PgBoss
