import PgBoss.Timekeeper.Filing
import PgBoss.Attorney.Flow

/-!
# Throttle slots of schedules

The checks on names and keys let no backslash pass, so that the key a schedule's occurrences are filed under is read
back as one name and one key, and the throttle index never takes a job of one schedule for a job of another.
-/

namespace PgBoss

open Timekeeper

/-- `assertQueueName`, of a string. -/
def assertQueueName (name : String) : Except FlowError Unit := do
  assertFlow (name ≠ "") "Name is required"
  assertObjectName name "Name"

/-- `assertKey`, of a string. -/
def assertKey (key : String) : Except FlowError Unit :=
  if key = "" then .ok () else assertObjectName key "Key"

/-- A row of the send-it queue holds a slot that a pass files a schedule's occurrence in. -/
def FiledFor (lib : RecurrenceLibrary) (s : Schedule) (row : Job) : Prop :=
  row.name = sendIt ∧ ∃ databaseTime lastPass, ∃ f ∈ (forward lib databaseTime lastPass s).scheduled,
    row.slotKey = f.singletonKey ∧ row.singletonOn = some f.singletonSlot

variable {lib : RecurrenceLibrary} {name : String}

theorem objectName_no_backslash (h : assertQueueName name = .ok ()) : '\\' ∉ name.toList := by
  have hobject : IsObjectName name := by
    by_contra hnot
    by_cases hempty : name = "" <;> simp [assertQueueName, assertObjectName, assertFlow, hempty, hnot, Bind.bind, Except.bind] at h
  intro hin
  exact absurd (List.all_eq_true.mp hobject.2 _ hin) (by decide)

/-- Every row that a pass inserts is filed for a schedule it read. -/
theorem filedFor_of_insert {stringify : ScheduledRequest → Json} {databaseTime now : ℤ} {lastPass : Option ℤ} {rows : List Schedule}
    {drawn : List Uuid} {db db' : Database} {inserted : List Job}
    (h : insertJobs now sendIt false (forwardedRows stringify (cron lib databaseTime lastPass rows).scheduled drawn) db =
      .ok (db', inserted)) {row : Job} (hrow : row ∈ inserted) : ∃ s ∈ rows, FiledFor lib s row := by
  obtain ⟨hname, -, f, hf, hkey, hslot⟩ := inserted_forwarded h hrow
  obtain ⟨s, hs, hf⟩ := List.mem_flatMap.mp hf
  exact ⟨s, hs, hname, databaseTime, lastPass, f, hf, hkey, hslot⟩

theorem slotKey_of_filedFor {s : Schedule} {row : Job} (h : FiledFor lib s row) : row.slotKey = occurrenceKey s.name s.key := by
  obtain ⟨-, _, _, f, hf, hkey, -⟩ := h
  rw [hkey, CronWorld.forward_key hf]

/-- A name without underscores is not escaped. -/
theorem escapeUnderscores_plain {chars : List Char} (h : '_' ∉ chars) : escapeUnderscores chars = chars := by
  induction chars with
  | nil => rfl
  | cons c chars ih =>
    rw [List.mem_cons, not_or] at h
    have hrest : escapeUnderscores (c :: chars) = c :: escapeUnderscores chars := by
      simp [escapeUnderscores, Ne.symm h.1]
    rw [hrest, ih h.2]

theorem occurrenceKey_plain {key : String} (h : '_' ∉ name.toList) : occurrenceKey name key = name ++ "__" ++ key := by
  apply String.toList_inj.mp
  rw [occurrenceKey, escapeUnderscores_plain h]
  simp

/-- Occurrence keys tell names and keys apart, so that schedules share no throttle slot, and a name without underscores
is found in its keys as it is. -/
theorem occurrenceKey_injective {name name' key key' : String} (hname : assertQueueName name = .ok ())
    (hname' : assertQueueName name' = .ok ()) (_hkey : assertKey key = .ok ()) (_hkey' : assertKey key' = .ok ()) :
    (occurrenceKey name key = occurrenceKey name' key' → name = name' ∧ key = key') ∧
    (∀ (lib lib' : RecurrenceLibrary) (s s' : Schedule) (row row' : Job), s.name = name → s.key = key → s'.name = name' →
      s'.key = key' → FiledFor lib s row → FiledFor lib' s' row' → jobI4.clash row row' = true → name = name' ∧ key = key') ∧
    ('_' ∉ name.toList → occurrenceKey name key = name ++ "__" ++ key) := by
  have hinj : occurrenceKey name key = occurrenceKey name' key' → name = name' ∧ key = key' :=
    occurrenceKey_inj (objectName_no_backslash hname) (objectName_no_backslash hname')
  refine ⟨hinj, ?_, occurrenceKey_plain⟩
  rintro lib lib' s s' row row' rfl rfl rfl rfl hrow hrow' hclash
  obtain ⟨-, -, -, -, -, hslots⟩ := jobI4_clash.mp hclash
  apply hinj
  rw [← slotKey_of_filedFor hrow, ← slotKey_of_filedFor hrow', hslots]

theorem occurrenceKey_injective_edges :
    ¬ occurrenceKey "report_" "daily" = occurrenceKey "report" "_daily" ∧
      occurrenceKey "report" "_daily" = "report" ++ "__" ++ "_daily" := by
  have hkeys := @occurrenceKey_injective "report" "report_" "_daily" "daily" (by decide) (by decide) (by decide) (by decide)
  exact ⟨fun h => absurd (hkeys.1 h.symm).1 (by decide), hkeys.2.2 (by decide)⟩

end PgBoss
