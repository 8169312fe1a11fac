import PgBoss.Lifecycle.Run
import PgBoss.Manager.CreateJob

/-!
# Debounced sends in a run

A run takes any statements, those of other sends among them, and a send's second insert sees what they left. The
index on slots holds in every state. The slot a debounced job is filed in, and where its start lies in it, depend on
when the second insert runs: it counts its slot from there, and its delay from the clock's reading before.
-/

namespace PgBoss

open Relational

section Times

variable {s reading second : Int}

/-- An instant is the start of its slot, the whole seconds into it and a fraction of a second. -/
theorem slotOf_add (s now : Int) : now = slotOf s now + seconds (secondOf now % s) + now % 1000000 := by
  have hdiv : now / (s * 1000000) = secondOf now / s := by
    rw [secondOf, mul_comm, Int.ediv_ediv_of_nonneg (by omega)]
  have hsecond : secondOf now = s * (secondOf now / s) + secondOf now % s := (Int.mul_ediv_add_emod _ _).symm
  have hnow : now = 1000000 * secondOf now + now % 1000000 := (Int.mul_ediv_add_emod _ _).symm
  have hslot : slotOf s now = s * (secondOf now / s) * 1000000 := by rw [slotOf, seconds, seconds, hdiv]
  rw [hslot, seconds]
  calc now = 1000000 * (s * (secondOf now / s) + secondOf now % s) + now % 1000000 := by rw [← hsecond]; exact hnow
    _ = _ := by ring

/-- How long after the start of its slot the debounced job starts. -/
theorem start_sub_slot (hs : 1 ≤ s) (reading second : Int) :
    second + seconds (getDebounceStartAfter s (reading / 1000)) - (slotOf s second + seconds s) =
      seconds (secondOf second % s - secondOf reading % s + if s = 1 then 0 else 1) + second % 1000000 := by
  have hsplit := slotOf_add s second
  have hread : reading / 1000 / 1000 = secondOf reading := by rw [Int.ediv_ediv_of_nonneg (by omega)]; rfl
  rw [getDebounceStartAfter_eq hs, hread]
  simp only [seconds] at hsplit ⊢
  linear_combination hsplit

/-- In one slot, the start is at most two seconds into the next if the width is a second, or the clock was read
in the same second as the insert, and only then. -/
theorem start_in_slot_iff (hs : 1 ≤ s) (horder : reading ≤ second) (hslot : slotOf s second = slotOf s reading) :
    (slotOf s second + seconds s ≤ second + seconds (getDebounceStartAfter s (reading / 1000)) ∧
        second + seconds (getDebounceStartAfter s (reading / 1000)) < slotOf s second + seconds s + seconds 2) ↔
      s = 1 ∨ secondOf second = secondOf reading := by
  have hstart := start_sub_slot hs reading second
  have hfraction := Int.emod_nonneg second (by decide : (1000000 : Int) ≠ 0)
  have hbelow := Int.emod_lt_of_pos second (by decide : (0 : Int) < 1000000)
  have hsecond := slotOf_add s second
  have hreading := slotOf_add s reading
  have hle : secondOf reading ≤ secondOf second := Int.ediv_le_ediv (by decide) horder
  have hphase : secondOf second - secondOf second % s = secondOf reading - secondOf reading % s := by
    have h₁ : second = 1000000 * secondOf second + second % 1000000 := (Int.mul_ediv_add_emod _ _).symm
    have h₂ : reading = 1000000 * secondOf reading + reading % 1000000 := (Int.mul_ediv_add_emod _ _).symm
    simp only [seconds] at hsecond hreading
    omega
  by_cases hone : s = 1
  · subst hone
    simp only [if_true, seconds, Int.emod_one] at hstart ⊢
    refine iff_of_true ?_ (.inl trivial)
    omega
  · rw [if_neg hone] at hstart
    simp only [hone, false_or, seconds] at hstart ⊢
    omega

end Times

/-- The job `#toJobPayload` makes of `send()`'s options for a slot of so many seconds. -/
structure JobInsert.SendsEvery (x : JobInsert) (s : Int) : Prop where
  seconds : x.singletonSeconds = some s
  offset : x.singletonOffset = some 0
  slot : x.singletonSlot = none

/-- What a send that found its slot taken should do: file a job in the next slot, to start no earlier than the slot and
less than two seconds into it, or none where that is taken too. -/
def Debounces (db : Database) (name key : String) (next : Timestamp) : Option Job → Prop
  | some job => job.holds name key next ∧ next ≤ job.startAfter ∧ job.startAfter < next + seconds 2
  | none => db.Taken name key next

theorem slotOf_mono {s first second : Int} (hs : 1 ≤ s) (h : first ≤ second) : slotOf s first ≤ slotOf s second := by
  have hdiv : first / seconds s ≤ second / seconds s := Int.ediv_le_ediv (by simp only [seconds]; omega) h
  have hmul : s * (first / seconds s) ≤ s * (second / seconds s) := Int.mul_le_mul_of_nonneg_left hdiv (by omega)
  simp only [slotOf, seconds] at hmul ⊢
  omega

theorem debounced_fields {x : JobInsert} {s : Int} (hs : x.singletonSeconds = some s) (reading : Int) :
    (debounced reading x).startAfter = .after (seconds (getDebounceStartAfter s (reading / 1000))) ∧
      (debounced reading x).singletonKey.getD "" = x.singletonKey.getD "" ∧ (debounced reading x).id = x.id := by
  simp [debounced, hs]

/-- A send that finds its slot taken comes to its second insert. -/
theorem createJob_second {t : SendInstants} {name : String} {policy : QueuePolicy} {x : JobInsert} {s : Int}
    {others : Database → Database} {db db' : Database} {filed : Option Job} (hx : x.SendsEvery s)
    (htaken : db.Taken name (x.singletonKey.getD "") (slotOf s t.first))
    (hsend : createJob t name policy x true others db = .ok (db', filed)) :
    ∃ rows, insertJobs t.second name false [(debounced t.reading x, t.secondId)] (others db) = .ok (db', rows) ∧
      filed = rows.head? := by
  have hrefused : refused jobIndexes db.jobs (insertRow t.first name (db.queue name) false t.firstId x) = true :=
    (refused_insertRow_iff (throttleSlot_first hx.seconds hx.slot hx.offset)).mpr (.inr (.inl htaken))
  unfold createJob at hsend
  split at hsend
  · contradiction
  cases hfirst : insertJobs t.first name false [(x, t.firstId)] db with
  | error e => rw [hfirst] at hsend; cases hsend
  | ok result =>
    obtain ⟨db₁, rows₁⟩ := result
    obtain ⟨rfl, rfl⟩ := insertJobs_refused hfirst hrefused
    rw [hfirst] at hsend
    simp only [if_true] at hsend
    cases hsecond : insertJobs t.second name false [(debounced t.reading x, t.secondId)] (others db₁) with
    | error e => rw [hsecond] at hsend; cases hsend
    | ok result =>
      obtain ⟨db₂, rows₂⟩ := result
      rw [hsecond] at hsend
      have hrows := insertJobs_one hsecond
      split_ifs at hrows <;> subst hrows <;> obtain ⟨rfl, rfl⟩ := Prod.mk.inj (Except.ok.inj hsend) <;> exact ⟨_, rfl, rfl⟩

/-- In every state of every run, a slot of a key holds one job; and a send that found its slot taken does as it should
if and only if its second insert is hindered and the next slot is taken, or it is not hindered and runs in the slot
of the first, and in the second the clock was read in unless slots are of one second. -/
theorem createJob_debounces_iff {w₀ w₁ w₂ : World} (hstart : w₀.Start) (hbefore : World.Run (fun _ _ => True) w₀ w₁)
    (hbetween : World.Run (fun _ _ => True) w₁ w₂) (t : SendInstants) (hfirst : t.first ≤ t.reading)
    (hsecond : t.reading ≤ t.second) (name : String) (policy : QueuePolicy) (x : JobInsert) (s : Int) (hs : 1 ≤ s)
    (hx : x.SendsEvery s) (htaken : w₁.db.Taken name (x.singletonKey.getD "") (slotOf s t.first))
    (others : Database → Database) (hothers : others w₁.db = w₂.db) (db' : Database) (filed : Option Job)
    (hsend : createJob t name policy x true others w₁.db = .ok (db', filed)) :
    (∀ db ∈ [w₁.db, w₂.db, db'], ∀ key slot, ∀ a ∈ db.jobs, ∀ b ∈ db.jobs,
        a.holds name key slot → b.holds name key slot → a = b) ∧
      (Debounces w₂.db name (x.singletonKey.getD "") (slotOf s t.first + seconds s) filed ↔
        w₂.db.Hindered name (x.singletonKey.getD "") (x.id.getD t.secondId) (slotOf s t.second + seconds s) ∧
            w₂.db.Taken name (x.singletonKey.getD "") (slotOf s t.first + seconds s) ∨
          ¬ w₂.db.Hindered name (x.singletonKey.getD "") (x.id.getD t.secondId) (slotOf s t.second + seconds s) ∧
            slotOf s t.second = slotOf s t.first ∧ (s = 1 ∨ secondOf t.second = secondOf t.reading)) := by
  have hallowed₁ : w₁.db.Allowed := hbefore.allowed hstart.allowed
  have hallowed₂ : w₂.db.Allowed := hbetween.allowed hallowed₁
  have hunique : ∀ {db : Database}, db.Allowed → ∀ key slot, ∀ a ∈ db.jobs, ∀ b ∈ db.jobs,
      a.holds name key slot → b.holds name key slot → a = b :=
    fun hdb key slot a ha b hb hholds hholds' => hdb.holds_unique ha hb hholds hholds'
  obtain ⟨rows, hinsert, hfiled⟩ := createJob_second hx htaken hsend
  rw [hothers] at hinsert
  have hallowed₃ : db'.Allowed := (insertJobs_ok hinsert).2.2.2.1 hallowed₂
  have hslot : throttleSlot t.second (debounced t.reading x) = some (slotOf s t.second + seconds s) :=
    throttleSlot_debounced hx.seconds hs hx.slot t.reading
  have hrefused := @refused_insertRow_iff w₂.db _ name _ t.secondId _ hslot
  have hrows := insertJobs_one hinsert
  obtain ⟨hstartAfter, hkey, hid⟩ := debounced_fields hx.seconds t.reading
  rw [hkey, hid] at hrefused
  refine ⟨by simpa using ⟨hunique hallowed₁, hunique hallowed₂, hunique hallowed₃⟩, ?_⟩
  by_cases hhindered : w₂.db.Hindered name (x.singletonKey.getD "") (x.id.getD t.secondId) (slotOf s t.second + seconds s)
  · rw [if_pos (hrefused.mpr hhindered)] at hrows
    subst hrows
    obtain rfl : filed = none := hfiled
    simp only [Debounces, hhindered, true_and, not_true_eq_false, false_and, or_false]
  · rw [if_neg (mt hrefused.mp hhindered)] at hrows
    subst hrows
    obtain rfl : filed = some _ := hfiled
    simp only [hhindered, false_and, false_or, not_false_eq_true, true_and, Debounces]
    have hholds : Job.holds (insertRow t.second name (w₂.db.queue name) false t.secondId (debounced t.reading x)) name
        (x.singletonKey.getD "") (slotOf s t.first + seconds s) ↔ slotOf s t.second = slotOf s t.first := by
      have hrow : (insertRow t.second name (w₂.db.queue name) false t.secondId (debounced t.reading x)).slotKey =
          x.singletonKey.getD "" := hkey
      have hon : (insertRow t.second name (w₂.db.queue name) false t.secondId (debounced t.reading x)).singletonOn =
          some (slotOf s t.second + seconds s) := hslot
      rw [Job.holds, hrow, hon]
      simp [insertRow]
    have hstarts : (insertRow t.second name (w₂.db.queue name) false t.secondId (debounced t.reading x)).startAfter =
        t.second + seconds (getDebounceStartAfter s (t.reading / 1000)) := by
      rw [insertRow, hstartAfter]; rfl
    rw [hholds, hstarts]
    refine and_congr_right fun hsame => ?_
    have hbetween : slotOf s t.second = slotOf s t.reading := by
      have hle := slotOf_mono hs hfirst
      have hle' := slotOf_mono hs hsecond
      omega
    rw [← hsame]
    exact start_in_slot_iff hs hsecond hbetween

section Witness

/-- A queue `q` with a job in the minute that starts at 0. -/
def minuteTaken : Database where
  jobs := [{ id := 1, name := "q", singletonOn := some 0, startAfter := 0, createdOn := 0, keepUntil := 0 }]
  queues := [{ queueDefaults with name := "q" }]

/-- A send debounced to the minute. -/
def minuteSend : JobInsert := { singletonSeconds := some 60, singletonOffset := some 0 }

theorem minuteTaken_start : World.Start { db := minuteTaken, seen := [("q", 1)] } :=
  ⟨⟨by decide, by decide⟩, rfl, by decide⟩

/-- A call within one second of the minute. -/
theorem createJob_debounces_minute : ∃ db' job,
    createJob ⟨seconds 30, seconds 30 + 400000, seconds 30 + 900000, 2, 3⟩ "q" .standard minuteSend true id minuteTaken =
        .ok (db', some job) ∧ Debounces minuteTaken "q" "" (seconds 60) (some job) := by
  refine ⟨_, _, rfl, ?_⟩
  have htaken : minuteTaken.Taken "q" "" 0 := ⟨_, List.mem_singleton.mpr rfl, nofun, rfl, rfl, rfl⟩
  refine (createJob_debounces_iff minuteTaken_start .refl .refl
    ⟨seconds 30, seconds 30 + 400000, seconds 30 + 900000, 2, 3⟩ (by decide) (by decide) "q" .standard minuteSend 60 (by decide)
    ⟨rfl, rfl, rfl⟩ htaken id rfl _ _ rfl).2.mpr (.inr ⟨?_, by decide, .inr (by decide)⟩)
  rintro (⟨j, hj, hid⟩ | ⟨j, hj, hholds⟩ | ⟨j, hj, hrules⟩) <;> obtain rfl := List.mem_singleton.mp hj
  · exact absurd hid (by decide)
  · exact absurd hholds.2.2.2 (by decide)
  · exact absurd hrules.2.2.1 (by decide)

/-- The slot is found taken just before the minute ends, and the second insert runs just after: the job is filed two
minutes on, and starts two seconds into the minute that was free. -/
theorem createJob_skips_slot : ∃ db' job,
    createJob ⟨seconds 60 - 500, seconds 60 - 400, seconds 60 + 500, 2, 3⟩ "q" .standard minuteSend true id minuteTaken =
        .ok (db', some job) ∧ job.singletonOn = some (seconds 120) ∧ job.startAfter = seconds 62 + 500 ∧
      minuteTaken.Taken "q" "" (slotOf 60 (seconds 60 - 500)) ∧ ¬ minuteTaken.Taken "q" "" (seconds 60) ∧
      ¬ Debounces minuteTaken "q" "" (seconds 60) (some job) := by
  have hfree : ¬ minuteTaken.Taken "q" "" (seconds 60) := by
    rintro ⟨j, hj, hholds⟩
    obtain rfl := List.mem_singleton.mp hj
    exact absurd hholds.2.2.2 (by decide)
  refine ⟨_, _, rfl, rfl, by decide, ⟨_, List.mem_singleton.mpr rfl, nofun, rfl, rfl, by decide⟩, hfree, ?_⟩
  rintro ⟨⟨-, -, -, hslot⟩, -⟩
  exact absurd hslot (by decide)

end Witness

end PgBoss
