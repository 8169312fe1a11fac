import PgBoss.Timekeeper.Reading
import PgBoss.Plans.Insert

/-!
# The cron pass

A pass judges every schedule against one instant. The jobs it files for a schedule name the throttle
slots of what is due and of what was missed, one job for each slot, under a key that tells the
schedule's name and key apart.
-/

namespace PgBoss

open Recurrence

/-- `QUEUES.SEND_IT`. -/
def sendIt : String := "__pgboss__send-it"

/-- `name.replaceAll('_', '\\_')`. -/
def escapeUnderscores (name : List Char) : List Char := name.flatMap fun c => if c = '_' then ['\\', '_'] else [c]

/-- `occurrenceKey`. -/
def occurrenceKey (name key : String) : String :=
  String.ofList (escapeUnderscores name.toList ++ ['_', '_'] ++ key.toList)

/-- What a pass puts on the send-it queue. -/
structure ScheduledRequest where
  name : String
  key : String
  data : Option Json
  options : Option ScheduleOptions
  slot : Timestamp
  deriving DecidableEq, Repr

/-- A job a pass inserts. -/
structure ForwardedJob where
  data : ScheduledRequest
  singletonKey : String
  singletonSlot : Timestamp
  deriving DecidableEq, Repr

/-- The row of the insert. `stringify` renders the request as JSON. -/
def ForwardedJob.insert (stringify : ScheduledRequest → Json) (f : ForwardedJob) : JobInsert where
  data := some (stringify f.data)
  singletonKey := some f.singletonKey
  singletonSlot := some f.singletonSlot

/-- A row a pass could not read, as the warnings about it are told apart. -/
structure BrokenSchedule where
  name : String
  key : String
  cron : String
  timezone : String
  deriving DecidableEq, Repr

/-- What a pass does: the jobs it inserts, the kinds it corrects, and the warnings it has to give. -/
structure CronPass where
  scheduled : List ForwardedJob := []
  relabelled : List (BrokenSchedule × ScheduleKind) := []
  broken : List (BrokenSchedule × String) := []

namespace Timekeeper

/-- `throttleSlot`: the start of the minute, in the microseconds of a `timestamp`. -/
def throttleSlot (instant : Int) : Timestamp := instant / windowMillis * windowMillis * 1000

/-- The slots of what was missed and what is due, each once, in the order they were added. -/
def occurrenceSlots (missed : Option Int) (due : List Int) : List Timestamp :=
  ((missed.toList ++ due).map throttleSlot).reverse.dedup.reverse

/-- What a pass does for one schedule. -/
def forward (lib : RecurrenceLibrary) (databaseTime : Int) (lastPass : Option Int) (s : Schedule) : CronPass :=
  let row : BrokenSchedule := ⟨s.name, s.key, s.cron, s.timezone⟩
  let warning := "Warning: schedule for queue \"" ++ s.name ++ "\" (key \"" ++ s.key ++ "\") could not be "
  match dueOccurrences lib s.cron s.kind s.timezone databaseTime with
  | .error e => { broken := [(row, warning ++ "evaluated and was skipped: " ++ e)] }
  | .ok (kind, due) =>
    let read := missedOccurrence lib s kind lastPass (databaseTime - windowMillis)
    { scheduled := (occurrenceSlots (read.toOption.getD none) due).map fun slot =>
        ⟨⟨s.name, s.key, s.data, s.options, slot⟩, occurrenceKey s.name s.key, slot⟩
      relabelled := if kind = s.kind then [] else [(row, kind)]
      broken := match read with
        | .error e => [(row, warning ++ "caught up on the gap since the last cron pass: " ++ e)]
        | .ok _ => [] }

/-- `cron()`, for the schedules it read and the stamp its claim replaced. -/
def cron (lib : RecurrenceLibrary) (databaseTime : Int) (priorCronOn : Option Int) (schedules : List Schedule) : CronPass where
  scheduled := schedules.flatMap fun s => (forward lib databaseTime priorCronOn s).scheduled
  relabelled := schedules.flatMap fun s => (forward lib databaseTime priorCronOn s).relabelled
  broken := schedules.flatMap fun s => (forward lib databaseTime priorCronOn s).broken

/-- The warnings `cron()` emits, which are those it did not give the pass before, and the rows it will not
warn about the next time. -/
def cronWarnings (warnedSchedules : List BrokenSchedule) (pass : CronPass) :
    List (BrokenSchedule × String) × List BrokenSchedule :=
  (pass.broken.filter fun b => decide (b.1 ∉ warnedSchedules), pass.broken.map Prod.fst)

end Timekeeper

section Keys

/-- An escaped name is read off the front of what it is put before. -/
theorem escapeUnderscores_inj {n m k l : List Char} (hn : '\\' ∉ n) (hm : '\\' ∉ m)
    (h : escapeUnderscores n ++ '_' :: '_' :: k = escapeUnderscores m ++ '_' :: '_' :: l) : n = m ∧ k = l := by
  induction n generalizing m with
  | nil =>
    cases m with
    | nil => simpa [escapeUnderscores] using h
    | cons d m =>
      by_cases hd : d = '_'
      · simp [escapeUnderscores, hd] at h
      · simp only [escapeUnderscores, List.flatMap_nil, List.flatMap_cons, hd, if_false, List.nil_append,
          List.cons_append, List.cons.injEq] at h
        exact absurd h.1.symm hd
  | cons c n ih =>
    rw [List.mem_cons, not_or] at hn
    cases m with
    | nil =>
      by_cases hc : c = '_' <;> simp [escapeUnderscores, hc] at h
    | cons d m =>
      rw [List.mem_cons, not_or] at hm
      by_cases hc : c = '_' <;> by_cases hd : d = '_'
      · simp only [escapeUnderscores, List.flatMap_cons, hc, hd, if_true, List.cons_append, List.nil_append,
          List.cons.injEq, true_and] at h
        obtain ⟨rfl, rfl⟩ := ih hn.2 hm.2 h
        exact ⟨by rw [hc, hd], rfl⟩
      · simp only [escapeUnderscores, List.flatMap_cons, hc, hd, if_true, if_false, List.cons_append, List.nil_append,
          List.cons.injEq] at h
        exact absurd h.1 hm.1
      · simp only [escapeUnderscores, List.flatMap_cons, hc, hd, if_true, if_false, List.cons_append, List.nil_append,
          List.cons.injEq] at h
        exact absurd h.1.symm hn.1
      · simp only [escapeUnderscores, List.flatMap_cons, hc, hd, if_false, List.cons_append, List.nil_append,
          List.cons.injEq] at h
        obtain ⟨rfl, hrest⟩ := h
        obtain ⟨rfl, rfl⟩ := ih hn.2 hm.2 hrest
        exact ⟨rfl, rfl⟩

/-- Names that hold no backslash keep their schedules apart. -/
theorem occurrenceKey_inj {name name' key key' : String} (hname : '\\' ∉ name.toList) (hname' : '\\' ∉ name'.toList)
    (h : occurrenceKey name key = occurrenceKey name' key') : name = name' ∧ key = key' := by
  have hlist := String.ofList_injective h
  rw [List.append_assoc, List.append_assoc] at hlist
  obtain ⟨hn, hk⟩ := escapeUnderscores_inj hname hname' hlist
  exact ⟨String.toList_inj.mp hn, String.toList_inj.mp hk⟩

end Keys

end PgBoss
