import PgBoss.Retained.Operations

/-!
# The retained count is exact

After every operation the count is that of the completed and cancelled jobs up to the watermark, and
the watermark is a full lag behind, so what commits later is ahead of it. A sweep's watermark is that
far behind only if its write comes no earlier than the time it read, which is rounded; and the count of
a sweep whose write failed is right only if it deleted nothing that was counted.
-/

namespace PgBoss

namespace RetainedWorld

variable {name : String} {assured : Prop} {w w' w₀ : RetainedWorld} {t : Int}

/-- The count is that of the jobs up to the watermark `t`, which is the lag behind. -/
structure Exact (name : String) (w : RetainedWorld) (t : Int) : Prop where
  watermark : w.columns.retainedOn = some t
  behind : t + deltaLag ≤ w.now
  count : w.columns.retainedCount = some (w.db.jobs.countP (finishedBy name (some t)) : Int)

/-- Only completed and cancelled jobs have finished by anything. -/
theorem retained_of_finishedBy {t : Option Int} {j : Job} (h : finishedBy name t j = true) :
    j.name = name ∧ j.retained = true := by
  simp only [finishedBy, Bool.and_eq_true, decide_eq_true_eq] at h
  exact h.1

/-- A job that waits or runs has not finished. -/
theorem finishedBy_of_lt_completed {t : Option Int} {j : Job} (h : j.state < .completed) :
    finishedBy name t j = false := by
  by_contra hfinished
  have hretained := (retained_of_finishedBy (by simpa using hfinished)).2
  simp only [Job.retained, Bool.or_eq_true, decide_eq_true_eq] at hretained
  rcases (JobState.lt_completed _).mp h with hstate | hstate | hstate <;> rw [hstate] at hretained <;> simp at hretained

/-- A job that finishes at a stamp ahead of the watermark is not counted. -/
theorem finishedBy_of_stamp {j : Job} {stamp : Int} (hcompleted : j.completedOn = some stamp) (ht : t < stamp) :
    finishedBy name (some t) j = false := by
  simp only [finishedBy, hcompleted, Option.any_some, Bool.and_eq_false_iff, decide_eq_false_iff_not]
  exact .inr (by omega)

/-- Where an update leaves those that it selects uncounted, as they were, the count stays. -/
theorem countP_updateWhere {db db' : Database} {select : Job → Bool} {set : Job → Job} {ids : List Uuid}
    (h : db.updateWhere select set = .ok (db', ids)) {p : Job → Bool} (hset : ∀ j, select j = true → p (set j) = false) :
    db'.jobs.countP p + db.jobs.countP (fun j => p j && select j) = db.jobs.countP p := by
  have hleft : db'.jobs.countP p = db.jobs.countP fun j => p j && !select j := by
    rw [(Database.updateWhere_ok h).1, List.countP_map]
    refine List.countP_congr fun j _ => ?_
    cases hselect : select j with
    | true => simp [hselect, hset j hselect]
    | false => simp [hselect]
  have hsplit := countP_eq_and_add (l := db.jobs) p select
  omega

/-- Jobs that finish ahead of the watermark leave the count. -/
theorem countP_of_finishes {stamp : Int} {db db' : Database} (h : Finishes stamp db db') (ht : t < stamp) :
    db'.jobs.countP (finishedBy name (some t)) = db.jobs.countP (finishedBy name (some t)) := by
  have hupdate : ∀ {select : Job → Bool} {set : Job → Job} {ids : List Uuid},
      db.updateWhere select set = .ok (db', ids) → (∀ j, select j = true → j.state < .completed) →
      (∀ j, (set j).completedOn = some stamp) →
      db'.jobs.countP (finishedBy name (some t)) = db.jobs.countP (finishedBy name (some t)) := by
    intro select set ids hok hselect hset
    have hcount := countP_updateWhere hok (p := finishedBy name (some t)) fun j _ => finishedBy_of_stamp (hset j) ht
    have hnone : (db.jobs.countP fun j => finishedBy name (some t) j && select j) = 0 := by
      refine List.countP_eq_zero.mpr fun j _ hj => ?_
      rw [Bool.and_eq_true] at hj
      exact nomatch (finishedBy_of_lt_completed (hselect j hj.2)).symm.trans hj.1
    omega
  cases h with
  | complete name' ids output includeQueued attempts completed hok =>
    refine hupdate hok (fun j hj => ?_) fun _ => rfl
    simp only [completeSelects, Bool.and_eq_true] at hj
    have hstate := hj.1.2
    split at hstate
    · exact of_decide_eq_true hstate
    · exact (JobState.lt_completed _).mpr (.inr (.inr (of_decide_eq_true hstate)))
  | completeWithOutputs name' items completed hok =>
    refine hupdate hok (fun j hj => ?_) fun _ => rfl
    simp only [attemptFence, Bool.and_eq_true] at hj
    exact (JobState.lt_completed _).mpr (.inr (.inr (of_decide_eq_true hj.2.1)))
  | cancel name' ids attempts cancelled hok =>
    refine hupdate hok (fun j hj => ?_) fun _ => rfl
    simp only [cancelSelects, Bool.and_eq_true] at hj
    exact of_decide_eq_true hj.1.2

/-- A commit within the lag of its stamp is ahead of the watermark. -/
theorem Exact.lt_stamp (h : w.Exact name t) {now stamp : Int} (hnow : w.now < now) (hlag : now - deltaLag ≤ stamp) :
    t < stamp := by
  have hbehind := h.behind
  omega

/-- What was taken out comes off the count. -/
theorem Exact.reduce (h : w.Exact name t) {db' : Database} {now : Int} (hnow : w.now ≤ now) {retained removed : ℕ}
    (hcount : db'.jobs.countP (finishedBy name (some t)) + retained = w.db.jobs.countP (finishedBy name (some t))) :
    Exact name { db := db', columns := reduceRetainedCount retained removed w.columns, now := now } t where
  watermark := h.watermark
  behind := h.behind.trans hnow
  count := by
    simp only [reduceRetainedCount, h.count, Option.map_some, Option.some.injEq]
    omega

/-- The count stays where nothing of it was taken out. -/
theorem Exact.stay (h : w.Exact name t) {db' : Database} {now : Int} (hnow : w.now ≤ now)
    (hcount : db'.jobs.countP (finishedBy name (some t)) = w.db.jobs.countP (finishedBy name (some t))) :
    Exact name { w with db := db', now := now } t where
  watermark := h.watermark
  behind := h.behind.trans hnow
  count := by
    rw [h.count]
    exact congrArg (fun n : ℕ => some (n : Int)) hcount.symm

theorem Exact.reduceDeleted (h : w.Exact name t) {call : WalkCall} (hname : call.name = name)
    (hwatermark : call.retainedOn = w.columns.retainedOn) {walk : Walk} {covered : Job → Bool}
    (hwalk : walk.Tallied call w.db covered) {now : Int} (hnow : w.now ≤ now) :
    Exact name { db := walk.db, columns := PgBoss.reduceDeleted walk.tally w.columns, now := now } t := by
  have hcount := hwalk.removed
  rw [hname, hwatermark, h.watermark] at hcount
  unfold PgBoss.reduceDeleted
  split
  · exact h.reduce hnow hcount
  case isFalse hnone =>
    have hbounded := hwalk.bounded
    exact h.stay hnow (by omega)

theorem Exact.reduceRetained (h : w.Exact name t) {db' : Database} {now : Int} (hnow : w.now ≤ now) {retained : ℕ}
    {deleted : Bool}
    (hcount : db'.jobs.countP (finishedBy name (some t)) + retained = w.db.jobs.countP (finishedBy name (some t))) :
    Exact name { db := db', columns := PgBoss.reduceRetained retained deleted w.columns, now := now } t := by
  unfold PgBoss.reduceRetained
  split
  · exact h.reduce hnow hcount
  · exact h.stay hnow (by omega)

/-- What a pass adds finished after the watermark and at or before the new one. -/
theorem countP_max (jobs : List Job) (name : String) (t stop : Int) :
    jobs.countP (finishedBy name (some (max t stop))) =
      jobs.countP (finishedBy name (some t)) + jobs.countP (finishedSince name (some t) stop) := by
  rw [countP_eq_and_add _ (finishedBy name (some t))]
  congr 1
  · refine List.countP_congr fun j _ => ?_
    cases hcompleted : j.completedOn <;>
      simp only [finishedBy, hcompleted, Option.any_none, Option.any_some, Bool.and_eq_true, decide_eq_true_eq]
    · tauto
    · constructor
      · exact fun h => h.2
      · exact fun h => ⟨⟨h.1, h.2.trans (le_max_left _ _)⟩, h⟩
  · refine List.countP_congr fun j _ => ?_
    cases hcompleted : j.completedOn <;>
      simp only [finishedBy, finishedSince, hcompleted, Option.any_none, Option.any_some, Bool.and_eq_true,
        Bool.not_eq_true', Bool.and_eq_false_iff, decide_eq_true_eq, decide_eq_false_iff_not, le_max_iff]
    · tauto
    · constructor
      · rintro ⟨⟨hj, hle⟩, hnot⟩
        have hafter := hnot.resolve_left (by simp [hj])
        exact ⟨hj, not_le.mp hafter, hle.resolve_left hafter⟩
      · rintro ⟨hj, hafter, hle⟩
        exact ⟨⟨hj, .inr hle⟩, .inr (not_le.mpr hafter)⟩

/-- A monitor pass or a forced refresh counts what finished since. -/
theorem Exact.count_step (h : w.Exact name t) {now : Int} (hnow : w.now < now) :
    Exact name { w with columns := countRetained now name w.db.jobs w.columns, now := now }
      (max t (deltaWindowEnd now)) where
  watermark := by
    simp only [countRetained, retainedAssignments, retainedStats, decide_true, if_true, h.watermark, Option.map_some]
  behind := by
    have hbehind := h.behind
    simp only [deltaWindowEnd]
    omega
  count := by
    simp only [countRetained, retainedAssignments, retainedStats, decide_true, if_true, h.count, h.watermark,
      Option.map_some, countP_max, Int.natCast_add]

/-- A sweep counts what it leaves up to its watermark. -/
theorem Swept.exact (h : Swept name True w w') : ∃ t, w'.Exact name t := by
  obtain ⟨start, stop, time, batchSize, walk, -, -, -, hwalk, hassured, rfl⟩ := h
  refine ⟨retainedBefore time, rfl, ?_, ?_⟩
  · have htime := hassured trivial
    simp only [retainedBefore, deltaLag, deltaLagSeconds, microsPerSecond]
    omega
  · have hkept := hwalk.tallied.kept
    simp only [Bool.and_true] at hkept
    exact congrArg (fun n : ℕ => some (n : Int)) hkept

theorem Exact.step (h : w.Exact name t) (hstep : Step name True w w') : ∃ t', w'.Exact name t' := by
  cases hstep with
  | finish now stamp db' hnow hlag hfinishes =>
    exact ⟨t, h.stay hnow.le (countP_of_finishes hfinishes (h.lt_stamp hnow hlag))⟩
  | count now hnow => exact ⟨_, h.count_step hnow⟩
  | sweep _ hswept => exact hswept.exact
  | sweepUnsaved now hnow time batchSize walk hwalk hassured =>
    have hcount := hwalk.tallied.removed
    have hzero := hassured trivial
    simp only [sweepCall, h.watermark] at hcount
    exact ⟨t, h.stay hnow.le (by omega)⟩
  | sweepCut now hnow time batchSize walk hwalk => exact ⟨t, h.reduceDeleted rfl rfl hwalk.tallied hnow.le⟩
  | deleteInBatches now hnow kind batchSize walk hwalk =>
    rcases hwalk with hpartly | hwholly
    · exact ⟨t, h.reduceDeleted rfl rfl hpartly.tallied hnow.le⟩
    · exact ⟨t, h.reduceDeleted rfl rfl hwholly.tallied hnow.le⟩
  | deleteAllJobs now hnow one hone =>
    refine ⟨deltaWindowEnd now, rfl, ?_, ?_⟩
    · simp [deltaWindowEnd]
    · have hnone : (truncateTable one w.db).jobs.countP (finishedBy name (some (deltaWindowEnd now))) = 0 := by
        refine List.countP_eq_zero.mpr fun j hj hfinished => ?_
        obtain ⟨n, hn, hother⟩ := Option.any_eq_true _ _ |>.mp (List.mem_filter.mp hj).2
        rw [hn, Option.all_some, decide_eq_true_eq] at hone
        exact absurd ((retained_of_finishedBy hfinished).1.trans hone.symm) (of_decide_eq_true hother)
      exact congrArg (fun n : ℕ => some (n : Int)) hnone.symm
  | deleteJob now hnow ids attempts db' deleted hok =>
    obtain ⟨rfl, -⟩ := Prod.mk.inj (Except.ok.inj hok)
    refine ⟨t, h.reduceRetained hnow.le ?_⟩
    have hsplit := countP_eq_and_add (l := w.db.jobs) (finishedBy name (some t)) fun j => named name ids j && fence attempts j
    simp only [deletedRetained, h.watermark, List.countP_filter]
    omega
  | resume now hnow ids db' resumed hok =>
    refine ⟨t, h.reduceRetained hnow.le ?_⟩
    rw [resumedRetained, h.watermark]
    exact countP_updateWhere hok fun j _ => finishedBy_of_lt_completed ((JobState.lt_completed _).mpr (.inl rfl))
  | other now hnow db' hsame =>
    have hcounted : ∀ jobs : List Job, jobs.countP (finishedBy name (some t)) =
        (jobs.filter fun j => decide (j.name = name) && j.retained).countP (finishedBy name (some t)) := by
      intro jobs
      rw [List.countP_filter]
      refine List.countP_congr fun j _ => ?_
      rw [Bool.and_eq_true, iff_self_and]
      intro hj
      obtain ⟨hname, hretained⟩ := retained_of_finishedBy hj
      simp [hname, hretained]
    exact ⟨t, h.stay hnow.le (by rw [hcounted, hsame, ← hcounted])⟩

theorem Run.exact (hswept : Swept name True w w₀) (hrun : Run name True w₀ w') : ∃ t, w'.Exact name t := by
  induction hrun with
  | refl => exact hswept.exact
  | tail _ hstep ih =>
    obtain ⟨t, hexact⟩ := ih
    exact hexact.step hstep

/-- From a finished sweep on, where sweeps write no earlier than the time they read, and fail to write only with nothing
counted deleted: the count is that of the jobs up to the watermark, and what finishes next is ahead of it. -/
theorem retainedCount_exact (hswept : Swept name True w w₀) (hrun : Run name True w₀ w') :
    ∃ t, w'.columns.retainedOn = some t ∧
      w'.columns.retainedCount = some (w'.db.jobs.countP (finishedBy name (some t)) : Int) ∧
      ∀ now stamp db', w'.now < now → now - deltaLag ≤ stamp → Finishes stamp w'.db db' → t < stamp := by
  obtain ⟨t, hexact⟩ := hrun.exact hswept
  exact ⟨t, hexact.watermark, hexact.count, fun now stamp db' hnow hlag _ => hexact.lt_stamp hnow hlag⟩

section Drift

/-- A job that finished at 0 s, kept for 100 s. -/
def finished : Job where
  id := 1
  name := "q"
  state := .completed
  deletionSeconds := 100
  startAfter := 0
  createdOn := 0
  completedOn := some 0
  keepUntil := 0

/-- A job that runs. -/
def running : Job := { finished with state := .active, completedOn := none }

/-- The queue before its first sweep. -/
def unswept (job : Job) : RetainedWorld := { db := { jobs := [job] }, now := 0 }

/-- The queue after a sweep that left its job. -/
def sweptAt (job : Job) (stop time : Int) (count : ℕ) : RetainedWorld where
  db := { jobs := [job] }
  columns := setRetainedCount stop "q" count (retainedBefore time) [job] {}
  now := stop

/-- A sweep of one batch that left the job, and counted it or not. -/
theorem unswept_swept {assured : Prop} {job : Job} {stop time : Int} (start : Int) (tally : WalkTally) (hstart : 0 < start)
    (hstop : start ≤ stop) (htime : GetTime start time) (hassured : assured → time * 1000 ≤ stop)
    (hbatch : Walk.Batch ((unswept job).sweepCall "q" 10 time) { db := { jobs := [job] } }
      { db := { jobs := [job] }, tally := tally }) :
    Swept "q" assured (unswept job) (sweptAt job stop time tally.retained) :=
  ⟨start, stop, time, 10, _, hstart, hstop, htime, ⟨_, .refl, hbatch, rfl⟩, hassured, rfl⟩

/-- At 30 s the sweep counts the finished job. -/
theorem finished_swept : Swept "q" True (unswept finished) (sweptAt finished 30000000 30000 1) :=
  unswept_swept 30000000 ⟨1, 0, 0⟩ (by decide) (Int.le_refl _) ⟨by decide, by decide⟩ (fun _ => by decide)
    ⟨30000000, [], by decide, by decide, by decide⟩

/-- At 30.0006 s the sweep reads a time 0.4 ms ahead, and writes 0.1 ms later. -/
theorem running_swept : Swept "q" False (unswept running) (sweptAt running 30000700 30001 0) :=
  unswept_swept 30000600 ⟨0, 0, 0⟩ (by decide) (by decide) ⟨by decide, by decide⟩ nofun
    ⟨30000600, [], by decide, by decide, by decide⟩

/-- A monitor pass a minute later finds the count as it is. -/
theorem retainedCount_exact_monitored : ∃ w : RetainedWorld, w.columns.retainedCount = some 1 ∧
    ∃ t, w.columns.retainedOn = some t ∧
      w.columns.retainedCount = some (w.db.jobs.countP (finishedBy "q" (some t)) : Int) ∧
      ∀ now stamp db', w.now < now → now - deltaLag ≤ stamp → Finishes stamp w.db db' → t < stamp :=
  ⟨_, by decide, retainedCount_exact finished_swept (.single (.count 90000000 (by decide)))⟩

/-- A sweep that deletes the finished job and then fails to write its count leaves the job counted; and after a sweep
whose write came before the time it had read, a job that finishes with a stamp of the lag before is never counted. -/
theorem retainedCount_drifts :
    (∃ w₀ w, Swept "q" True (unswept finished) w₀ ∧ Run "q" False w₀ w ∧
      ¬ ∃ t, w.columns.retainedOn = some t ∧
        w.columns.retainedCount = some (w.db.jobs.countP (finishedBy "q" (some t)) : Int)) ∧
    ∃ w₀ w, Swept "q" False (unswept running) w₀ ∧ Run "q" False w₀ w ∧
      ¬ ∃ t, w.columns.retainedOn = some t ∧
        w.columns.retainedCount = some (w.db.jobs.countP (finishedBy "q" (some t)) : Int) := by
  constructor
  · have hwalk : Walk.Wholly ((sweptAt finished 30000000 30000 1).sweepCall "q" 10 200000)
        { db := { jobs := [finished] } } { db := {}, tally := ⟨0, 1, 1⟩ } :=
      ⟨_, .refl, ⟨200000000, [1], by decide, by decide, by decide⟩, rfl⟩
    refine ⟨_, _, finished_swept, .single (.sweepUnsaved 200000000 (by decide) 200000 10 _ hwalk nofun), ?_⟩
    rintro ⟨t, ht, hcount⟩
    obtain rfl := Option.some.inj ht
    exact absurd hcount (by decide)
  · have hfinishes : Finishes 20000800 (sweptAt running 30000700 30001 0).db
        { jobs := [completeSet 20000800 none false running] } :=
      .complete "q" [1] none false none [1] (by decide)
    refine ⟨_, _, running_swept, .single (.finish 30000800 20000800 _ (by decide) (by decide) hfinishes), ?_⟩
    rintro ⟨t, ht, hcount⟩
    obtain rfl := Option.some.inj ht
    exact absurd hcount (by decide)

end Drift

end RetainedWorld

end PgBoss
