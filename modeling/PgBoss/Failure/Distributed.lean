import PgBoss.Manager.FailDistributed
import PgBoss.Failure.Conservation

/-!
# Which jobs the multi-statement failure path loses

Each turn of the loop of `reinsertFailedJobs` offers the table a retry row, if the job may run
again, and else, or if that was refused, a failed row; the second answer is not read. A failed
row is refused by `job_i8` alone, the only policy index that covers failed jobs: so a job is
lost, and still counted and copied, exactly when its queue is `key_strict_fifo` and its key
belongs to another selected job or to one that is active, retrying or failed.

The sweeps and the per-job settles select active jobs, which hold their keys themselves, and
lose none. `fail()` also selects queued jobs.

Between the delete and the last insert some selected job is not in the table. Where the statements
share a transaction, one that is rejected there takes the delete back with it; inline it does not.
-/

namespace PgBoss

open Relational

variable {i : ReinsertInput} {db db' cur : Database} {jobs done : List Job}

/-- The key of a selected `key_strict_fifo` job is another selected job's too, or is held by an
active, retrying or failed one. -/
def KeyHeld (db : Database) (jobs : List Job) : Prop :=
  ∃ j ∈ jobs, j.policy = some .keyStrictFifo ∧ ∃ o ∈ db.jobs, o ≠ j ∧ o.policy = some .keyStrictFifo ∧
    o.name = j.name ∧ o.singletonKey = j.singletonKey ∧
    (o ∈ jobs ∨ o.state = .active ∨ o.state = .retry ∨ o.state = .failed)

/-- `r` is the dead letter copy of `j`. -/
def IsCopy (i : ReinsertInput) (db : Database) (j r : Job) : Prop :=
  ∃ q, db.deadLetterQueue j = some q ∧ r = deadLetterRow i.toFailInput j (reinsertFailedRow i j) q

/-- The jobs a call selects are distinct unfinished rows of the table. -/
structure Selection (db : Database) (jobs : List Job) : Prop where
  mem : ∀ j ∈ jobs, j ∈ db.jobs
  nodup : jobs.Nodup
  unfinished : ∀ j ∈ jobs, j.state < .completed

/-- The loop has gone through `done` and left the table at `cur`. -/
structure Reinserting (i : ReinsertInput) (db : Database) (jobs done : List Job) (cur : Database) : Prop where
  consistent : Consistent jobIndexes cur.jobs
  queues : cur.queues = db.queues
  kept : ∀ r ∈ db.jobs, r ∉ jobs → r ∈ cur.jobs
  origin : ∀ r ∈ cur.jobs, (r ∈ db.jobs ∧ r ∉ jobs) ∨ ∃ j ∈ done, r = reinsertRetryRow i j ∨
    r = reinsertFailedRow i j ∨ IsCopy i db j r ∧ (¬ KeyHeld db jobs → reinsertFailedRow i j ∈ cur.jobs)
  placed : ¬ KeyHeld db jobs → ∀ j ∈ done, reinsertRetryRow i j ∈ cur.jobs ∨ reinsertFailedRow i j ∈ cur.jobs

section Rows

theorem insertRetryJob_mem {row r : Job} (hr : r ∈ (insertRetryJob row cur).1.jobs) : r ∈ cur.jobs ∨ r = row := by
  by_cases hrefused : refused jobIndexes cur.jobs row = true
  · exact .inl (by simpa [insertRetryJob, hrefused] using hr)
  · simpa [insertRetryJob, hrefused] using hr

theorem insertRetryJob_keeps {row r : Job} (hr : r ∈ cur.jobs) : r ∈ (insertRetryJob row cur).1.jobs := by
  rw [insertRetryJob]
  split
  · exact hr
  · exact List.mem_append_left _ hr

@[simp] theorem insertRetryJob_queues (row : Job) (db : Database) :
    (insertRetryJob row db).1.queues = db.queues ∧ (insertRetryJob row db).1.dependencies = db.dependencies := by
  rw [insertRetryJob]
  split <;> exact ⟨rfl, rfl⟩

theorem insertRetryJob_consistent {row : Job} (h : Consistent jobIndexes cur.jobs) :
    Consistent jobIndexes (insertRetryJob row cur).1.jobs := by
  cases hrefused : refused jobIndexes cur.jobs row with
  | true => simpa [insertRetryJob, hrefused] using h
  | false => simpa [insertRetryJob, hrefused] using h.concat hrefused

/-- The dead letter copy one turn of the loop makes, when the job ends failed. -/
def turnCopies (i : ReinsertInput) (j : Job) (db : Database) : List Job :=
  if canRetry i.toFailInput j = true ∧ refused jobIndexes db.jobs (reinsertRetryRow i j) = false ∨
      j.deadLetter = some "" then []
  else ((db.deadLetterQueue j).map (deadLetterRow i.toFailInput j (reinsertFailedRow i j))).toList

/-- The dead letter copies the loop makes. -/
def reinsertCopies (i : ReinsertInput) : List Job → Database → List Job
  | [], _ => []
  | j :: rest, db =>
    match reinsertFailedJob i j db with
    | .error _ => []
    | .ok db' => turnCopies i j db ++ reinsertCopies i rest db'

/-- What one turn of the loop adds, whichever way it goes. -/
structure Turned (i : ReinsertInput) (j : Job) (cur db' : Database) : Prop where
  keeps : ∀ r ∈ cur.jobs, r ∈ db'.jobs
  rows : ∀ r ∈ db'.jobs, r ∈ cur.jobs ∨ r = reinsertRetryRow i j ∧ canRetry i.toFailInput j = true ∨
    r = reinsertFailedRow i j ∨ r ∈ turnCopies i j cur
  copies : ∀ r ∈ turnCopies i j cur, r ∈ db'.jobs
  queues : db'.queues = cur.queues
  dependencies : db'.dependencies = cur.dependencies
  consistent : Consistent jobIndexes cur.jobs → Consistent jobIndexes db'.jobs

theorem reinsertAsFailed_turned {j : Job}
    (hends : ¬ (canRetry i.toFailInput j = true ∧ refused jobIndexes cur.jobs (reinsertRetryRow i j) = false))
    (h : reinsertAsFailed i j cur = .ok db') : Turned i j cur db' := by
  have hsecond : turnCopies i j cur = [] → Turned i j cur (insertRetryJob (reinsertFailedRow i j) cur).1 :=
    fun hnone => ⟨fun r => insertRetryJob_keeps, fun r hr => (insertRetryJob_mem hr).imp id fun hr => .inr (.inl hr),
      by simp [hnone], (insertRetryJob_queues _ _).1, (insertRetryJob_queues _ _).2, insertRetryJob_consistent⟩
  simp only [reinsertAsFailed] at h
  split at h
  · rename_i hdead
    exact Except.ok.inj h ▸ hsecond (by simp [turnCopies, Database.deadLetterQueue, hdead])
  rename_i deadLetter hdead
  split at h
  · rename_i hempty
    exact Except.ok.inj h ▸ hsecond (by simp [turnCopies, hdead, hempty])
  rename_i hnonempty
  have hqueue : cur.deadLetterQueue j = (insertRetryJob (reinsertFailedRow i j) cur).1.queue deadLetter := by
    rw [Database.deadLetterQueue, hdead, Option.bind_some, Database.queue, Database.queue,
      (insertRetryJob_queues _ _).1]
  simp only [insertDeadLetterJob] at h
  split at h
  · rename_i hq
    exact Except.ok.inj h ▸ hsecond (by simp [turnCopies, hqueue, hq])
  rename_i q hq
  split at h
  · contradiction
  rename_i jobs hjobs
  obtain rfl := Except.ok.inj h
  have hcopies : turnCopies i j cur = [deadLetterRow i.toFailInput j (reinsertFailedRow i j) q] := by
    rw [turnCopies, if_neg, hqueue, hq]
    · rfl
    · rintro (hretry | hempty)
      · exact hends hretry
      · exact hnonempty (Option.some.inj (hdead.symm.trans hempty))
  rw [insertOrRaise_eq_some hjobs]
  refine ⟨fun r hr => List.mem_append_left _ (insertRetryJob_keeps hr), fun r hr => ?_,
    fun r hr => List.mem_append_right _ (hcopies ▸ hr), (insertRetryJob_queues _ _).1, (insertRetryJob_queues _ _).2,
    fun hcur => insertOrRaise_eq_some hjobs ▸ insertOrRaise_consistent (insertRetryJob_consistent hcur) hjobs⟩
  rcases List.mem_append.mp hr with hr | hr
  · exact (insertRetryJob_mem hr).imp id fun hr => .inr (.inl hr)
  · exact .inr (.inr (.inr (hcopies ▸ hr)))

theorem reinsertFailedJob_turned {j : Job} (h : reinsertFailedJob i j cur = .ok db') : Turned i j cur db' := by
  simp only [reinsertFailedJob] at h
  by_cases hcan : canRetry i.toFailInput j = true
  · simp only [hcan, if_true] at h
    cases hrefused : refused jobIndexes cur.jobs (reinsertRetryRow i j) with
    | false =>
      rw [if_pos (by simp [insertRetryJob, hrefused])] at h
      obtain rfl := Except.ok.inj h
      exact ⟨fun r => insertRetryJob_keeps, fun r hr => (insertRetryJob_mem hr).imp id fun hr => .inl ⟨hr, hcan⟩,
        by simp [turnCopies, hcan, hrefused], (insertRetryJob_queues _ _).1, (insertRetryJob_queues _ _).2, insertRetryJob_consistent⟩
    | true =>
      have hfirst : insertRetryJob (reinsertRetryRow i j) cur = (cur, false) := by simp [insertRetryJob, hrefused]
      rw [hfirst] at h
      exact reinsertAsFailed_turned (fun hends => by simp [hrefused] at hends) (by simpa using h)
  · simp only [hcan] at h
    exact reinsertAsFailed_turned (fun hends => hcan hends.1) (by simpa using h)

/-- What the loop adds. -/
structure Looped (i : ReinsertInput) (jobs : List Job) (cur db' : Database) : Prop where
  rows : ∀ r ∈ db'.jobs, r ∈ cur.jobs ∨ (∃ j ∈ jobs, r = reinsertRetryRow i j ∧ canRetry i.toFailInput j = true ∨
    r = reinsertFailedRow i j) ∨ r ∈ reinsertCopies i jobs cur
  keeps : ∀ r ∈ cur.jobs, r ∈ db'.jobs
  copies : ∀ r ∈ reinsertCopies i jobs cur, r ∈ db'.jobs
  queues : db'.queues = cur.queues
  dependencies : db'.dependencies = cur.dependencies
  consistent : Consistent jobIndexes cur.jobs → Consistent jobIndexes db'.jobs

theorem reinsertFailedJobs_looped {count n : ℕ} (h : reinsertFailedJobs i count jobs cur = .ok (db', n)) :
    Looped i jobs cur db' := by
  induction jobs generalizing cur count with
  | nil =>
    obtain ⟨rfl, -⟩ := Prod.mk.inj (Except.ok.inj h)
    exact ⟨fun r hr => .inl hr, fun r hr => hr, by simp [reinsertCopies], rfl, rfl, id⟩
  | cons j rest ih =>
    simp only [reinsertFailedJobs] at h
    split at h
    · contradiction
    rename_i next hnext
    have hturn := reinsertFailedJob_turned hnext
    have hrest := ih h
    have hcopies : reinsertCopies i (j :: rest) cur = turnCopies i j cur ++ reinsertCopies i rest next := by
      rw [reinsertCopies, hnext]
    refine ⟨fun r hr => ?_, fun r hr => hrest.keeps r (hturn.keeps r hr), fun r hr => ?_,
      hrest.queues.trans hturn.queues, hrest.dependencies.trans hturn.dependencies,
      fun hcur => hrest.consistent (hturn.consistent hcur)⟩
    case refine_2 =>
      rw [hcopies] at hr
      rcases List.mem_append.mp hr with hr | hr
      · exact hrest.keeps r (hturn.copies r hr)
      · exact hrest.copies r hr
    rw [hcopies, List.mem_append]
    rcases hrest.rows r hr with hr | ⟨k, hk, hr⟩ | hr
    · rcases hturn.rows r hr with hr | hr | hr | hr
      · exact .inl hr
      · exact .inr (.inl ⟨j, List.mem_cons_self, .inl hr⟩)
      · exact .inr (.inl ⟨j, List.mem_cons_self, .inr hr⟩)
      · exact .inr (.inr (.inl hr))
    · exact .inr (.inl ⟨k, List.mem_cons_of_mem _ hk, hr⟩)
    · exact .inr (.inr (.inr hr))

theorem deadLetterQueue_congr {j : Job} (hqueues : cur.queues = db.queues) :
    cur.deadLetterQueue j = db.deadLetterQueue j := by
  simp only [Database.deadLetterQueue, show cur.queue = db.queue from funext fun name => by
    rw [Database.queue, Database.queue, hqueues]]

/-- A copy the loop makes is the dead letter copy of one of its jobs. -/
theorem isCopy_of_mem {r : Job} (hr : r ∈ reinsertCopies i jobs cur) (hqueues : cur.queues = db.queues) :
    ∃ j ∈ jobs, IsCopy i db j r := by
  induction jobs generalizing cur with
  | nil => simp [reinsertCopies] at hr
  | cons j rest ih =>
    rw [reinsertCopies] at hr
    split at hr
    · simp at hr
    rename_i next hnext
    rcases List.mem_append.mp hr with hr | hr
    · rw [turnCopies] at hr
      split at hr
      · simp at hr
      · obtain ⟨q, hq, rfl⟩ := Option.map_eq_some_iff.mp (Option.mem_toList.mp hr)
        exact ⟨j, List.mem_cons_self, q, (deadLetterQueue_congr hqueues).symm.trans hq, rfl⟩
    · obtain ⟨k, hk, hcopy⟩ := ih hr ((reinsertFailedJob_turned hnext).queues.trans hqueues)
      exact ⟨k, List.mem_cons_of_mem _ hk, hcopy⟩

end Rows

/-- The table without the selected rows. -/
def Database.without (db : Database) (jobs : List Job) : Database :=
  { db with jobs := db.jobs.filter fun j => decide (j ∉ jobs) }

theorem reinserting_nil (hdb : db.Allowed) : Reinserting i db jobs [] (db.without jobs) where
  consistent := hdb.consistent.filter _
  queues := rfl
  kept _ hr hnot := List.mem_filter.mpr ⟨hr, decide_eq_true hnot⟩
  origin _ hr := .inl ⟨(List.mem_filter.mp hr).1, of_decide_eq_true (List.mem_filter.mp hr).2⟩
  placed _ _ hj := absurd hj List.not_mem_nil

section Step

/-- A row that enters the table for one more job. -/
theorem Reinserting.extend (h : Reinserting i db jobs done cur) {j row : Job}
    (hfree : refused jobIndexes cur.jobs row = false)
    (horigin : row = reinsertRetryRow i j ∨ row = reinsertFailedRow i j ∨
      IsCopy i db j row ∧ (¬ KeyHeld db jobs → reinsertFailedRow i j ∈ cur.jobs))
    (hplaced : ¬ KeyHeld db jobs → reinsertRetryRow i j ∈ cur.jobs ++ [row] ∨
      reinsertFailedRow i j ∈ cur.jobs ++ [row]) :
    Reinserting i db jobs (j :: done) { cur with jobs := cur.jobs ++ [row] } where
  consistent := h.consistent.concat hfree
  queues := h.queues
  kept r hr hnot := List.mem_append_left _ (h.kept r hr hnot)
  origin r hr := by
    have hgrow : ∀ {k : Job}, (¬ KeyHeld db jobs → reinsertFailedRow i k ∈ cur.jobs) →
        ¬ KeyHeld db jobs → reinsertFailedRow i k ∈ cur.jobs ++ [row] :=
      fun hk hno => List.mem_append_left _ (hk hno)
    rcases List.mem_append.mp hr with hr | hr
    · rcases h.origin r hr with hr | ⟨k, hk, hr⟩
      · exact .inl hr
      · exact .inr ⟨k, List.mem_cons_of_mem _ hk, hr.imp id (Or.imp id (And.imp id hgrow))⟩
    · rw [List.mem_singleton.mp hr]
      exact .inr ⟨j, List.mem_cons_self, horigin.imp id (Or.imp id (And.imp id hgrow))⟩
  placed hno k hk := by
    rcases List.mem_cons.mp hk with rfl | hk
    · exact hplaced hno
    · exact (h.placed hno k hk).imp (List.mem_append_left _) (List.mem_append_left _)

/-- A job whose rows were all refused goes by, if some key is held. -/
theorem Reinserting.skip (h : Reinserting i db jobs done cur) (j : Job) (hheld : KeyHeld db jobs) :
    Reinserting i db jobs (j :: done) cur where
  consistent := h.consistent
  queues := h.queues
  kept := h.kept
  origin r hr := (h.origin r hr).imp id fun ⟨k, hk, hr⟩ => ⟨k, List.mem_cons_of_mem _ hk, hr⟩
  placed hno := absurd hheld hno

/-- While no key is held, a failed row finds its place free. -/
theorem failed_row_free (hdb : db.Allowed) (hsel : Selection db jobs)
    (hfresh : FreshIds i.toFailInput (fun j => decide (j ∈ jobs)) db) (h : Reinserting i db jobs done cur)
    (hdone : ∀ k ∈ done, k ∈ jobs) {j : Job} (hj : j ∈ jobs) (hjd : j ∉ done) (hno : ¬ KeyHeld db jobs) :
    refused jobIndexes cur.jobs (reinsertFailedRow i j) = false := by
  have hjdb := hsel.mem j hj
  have hjstate : j.state ≠ .cancelled := fun hs => by simpa [hs] using hsel.unfinished j hj
  refine (not_refused_iff _ _ _).mpr fun x hx => ?_
  by_contra hclash
  have hclash : clashes jobIndexes (reinsertFailedRow i j) x = true := by simpa using hclash
  -- a kept row and a re-inserted row stand for a job of the table in the same way
  have hshadow : (∃ o ∈ db.jobs, o ≠ j ∧ o.jobKey = x.jobKey ∧ o.policy = x.policy ∧
      o.singletonKey = x.singletonKey ∧ o.singletonOn = x.singletonOn ∧
      (x.state ≠ .cancelled → o.state ≠ .cancelled) ∧ (o ∈ jobs ∨ o.state = x.state)) ∨
      ∃ k ∈ jobs, IsCopy i db k x := by
    rcases h.origin x hx with ⟨hmem, hnot⟩ | ⟨k, hk, hrow⟩
    · exact .inl ⟨x, hmem, fun heq => hnot (heq ▸ hj), rfl, rfl, rfl, rfl, id, .inr rfl⟩
    · have hkj : k ≠ j := fun heq => hjd (heq ▸ hk)
      have hkstate : k.state ≠ .cancelled := fun hs => by simpa [hs] using hsel.unfinished k (hdone k hk)
      have hkdb := hsel.mem k (hdone k hk)
      rcases hrow with rfl | rfl | ⟨hcopy, -⟩
      · exact .inl ⟨k, hkdb, hkj, rfl, rfl, rfl, rfl, fun _ => hkstate, .inl (hdone k hk)⟩
      · exact .inl ⟨k, hkdb, hkj, rfl, rfl, rfl, rfl, fun _ => hkstate, .inl (hdone k hk)⟩
      · exact .inr ⟨k, hdone k hk, hcopy⟩
  rcases hshadow with ⟨o, ho, hoj, hkey, hpolicy, hsingle, hon, hlive, hheld⟩ | ⟨k, hk, q, -, rfl⟩
  · obtain ⟨hname, -⟩ := Prod.mk.inj hkey
    have hfree : clashes jobIndexes j o = false := by
      by_contra hne
      exact hoj (hdb.consistent.eq_of_clashes hjdb ho (by simpa using hne)).symm
    have hno' : ∀ {p : Prop}, clashes jobIndexes j o = true → p := fun hc => by simp [hfree] at hc
    rcases jobs_clash_iff.mp hclash with hc | hc | hc | hc | hc | hc | hc | hc
    · exact hno' (clashes_of_jobKey ((primaryKey_clash.mp hc).trans hkey.symm))
    · exact absurd (jobI1_clash.mp hc).1.1 (by simp [reinsertFailedRow])
    · exact absurd (jobI2_clash.mp hc).1.1 (by simp [reinsertFailedRow])
    · exact absurd (jobI3_clash.mp hc).1.1 (by simp [reinsertFailedRow])
    · obtain ⟨-, hxs, hsome, hslot, hn, hk⟩ := jobI4_clash.mp hc
      refine hno' (jobs_clash_iff.mpr (.inr (.inr (.inr (.inr (.inl (jobI4_clash.mpr ⟨hjstate, hlive hxs,
        hsome, hslot.trans hon.symm, hn.trans hname.symm, ?_⟩)))))))
      exact hk.trans (congrArg (·.getD "") hsingle.symm)
    · exact absurd (jobI6_clash.mp hc).1.1 (by simp [reinsertFailedRow])
    · obtain ⟨⟨-, hp⟩, ⟨hxs, hxp⟩, hn, -, hk⟩ := jobI8_clash.mp hc
      refine hno ⟨j, hj, hp, o, ho, hoj, hpolicy.trans hxp, hname.trans hn.symm, hsingle.trans hk.symm, ?_⟩
      exact hheld.imp id fun hs => by rwa [hs]
    · exact absurd (jobI13_clash.mp hc).1.2 (by simp [reinsertFailedRow])
  · rw [clashes_symm] at hclash
    exact hfresh.unused k (hsel.mem k hk) (decide_eq_true hk) j hjdb (deadLetterRow_clash hclash).2.symm

/-- A fresh copy is refused by no row already in the table. -/
theorem copy_free (hsel : Selection db jobs)
    (hfresh : FreshIds i.toFailInput (fun j => decide (j ∈ jobs)) db) (h : Reinserting i db jobs done cur)
    (hdone : ∀ k ∈ done, k ∈ jobs) {j : Job} (hj : j ∈ jobs) (hjd : j ∉ done) (r : Job) (q : Queue) {x : Job}
    (hx : x ∈ cur.jobs ∨ x = reinsertFailedRow i j) :
    clashes jobIndexes (deadLetterRow i.toFailInput j r q) x = false := by
  have hunused := hfresh.unused j (hsel.mem j hj) (decide_eq_true hj)
  by_contra hclash
  have hid := (deadLetterRow_clash (by simpa using hclash)).2
  rcases hx with hx | rfl
  · rcases h.origin x hx with ⟨hmem, -⟩ | ⟨k, hk, rfl | rfl | ⟨⟨q', -, rfl⟩, -⟩⟩
    · exact hunused x hmem hid.symm
    · exact hunused k (hsel.mem k (hdone k hk)) hid.symm
    · exact hunused k (hsel.mem k (hdone k hk)) hid.symm
    · have hjk := hfresh.distinct j (hsel.mem j hj) (decide_eq_true hj) k (hsel.mem k (hdone k hk))
        (decide_eq_true (hdone k hk)) hid
      exact hjd (hjk ▸ hk)
  · exact hunused j (hsel.mem j hj) hid.symm

theorem Reinserting.congr (h : Reinserting i db jobs done cur) {done' : List Job}
    (hmem : ∀ k, k ∈ done ↔ k ∈ done') : Reinserting i db jobs done' cur where
  consistent := h.consistent
  queues := h.queues
  kept := h.kept
  origin r hr := (h.origin r hr).imp id fun ⟨k, hk, hr⟩ => ⟨k, (hmem k).mp hk, hr⟩
  placed hno k hk := h.placed hno k ((hmem k).mpr hk)

/-- The second insert of a turn places the job unless some key is held. -/
theorem Reinserting.insertFailed (hdb : db.Allowed) (hsel : Selection db jobs)
    (hfresh : FreshIds i.toFailInput (fun j => decide (j ∈ jobs)) db) (h : Reinserting i db jobs done cur)
    (hdone : ∀ k ∈ done, k ∈ jobs) {j : Job} (hj : j ∈ jobs) (hjd : j ∉ done) :
    Reinserting i db jobs (j :: done) (insertRetryJob (reinsertFailedRow i j) cur).1 ∧
      (¬ KeyHeld db jobs → reinsertFailedRow i j ∈ (insertRetryJob (reinsertFailedRow i j) cur).1.jobs) ∧
      ∀ x ∈ (insertRetryJob (reinsertFailedRow i j) cur).1.jobs, x ∈ cur.jobs ∨ x = reinsertFailedRow i j := by
  cases hfree : refused jobIndexes cur.jobs (reinsertFailedRow i j) with
  | true =>
    have hheld : KeyHeld db jobs := by
      by_contra hno
      simp [failed_row_free hdb hsel hfresh h hdone hj hjd hno] at hfree
    simpa [insertRetryJob, hfree, hheld] using ⟨h.skip j hheld, fun x hx => .inl hx⟩
  | false =>
    have hnext := h.extend (j := j) hfree (.inr (.inl rfl)) fun _ => .inr (by simp)
    simpa [insertRetryJob, hfree] using hnext

/-- The second half of a turn raises nothing and goes by its job. -/
theorem Reinserting.asFailed (hdb : db.Allowed) (hsel : Selection db jobs)
    (hfresh : FreshIds i.toFailInput (fun j => decide (j ∈ jobs)) db) (h : Reinserting i db jobs done cur)
    (hdone : ∀ k ∈ done, k ∈ jobs) {j : Job} (hj : j ∈ jobs) (hjd : j ∉ done) :
    ∃ cur', reinsertAsFailed i j cur = .ok cur' ∧ Reinserting i db jobs (j :: done) cur' := by
  obtain ⟨hsecond, hfailed, hrows⟩ := h.insertFailed hdb hsel hfresh hdone hj hjd
  cases hdead : j.deadLetter with
  | none => exact ⟨_, by rw [reinsertAsFailed, hdead], hsecond⟩
  | some deadLetter =>
    by_cases hempty : deadLetter = ""
    · exact ⟨_, by rw [reinsertAsFailed, hdead]; exact if_pos hempty, hsecond⟩
    have hturn : reinsertAsFailed i j cur = insertDeadLetterJob i.toFailInput deadLetter j
        (reinsertFailedRow i j) (insertRetryJob (reinsertFailedRow i j) cur).1 := by
      rw [reinsertAsFailed, hdead]
      exact if_neg hempty
    rw [hturn]
    cases hq : (insertRetryJob (reinsertFailedRow i j) cur).1.queue deadLetter with
    | none => exact ⟨_, by rw [insertDeadLetterJob, hq], hsecond⟩
    | some q =>
      have hcopy : refused jobIndexes (insertRetryJob (reinsertFailedRow i j) cur).1.jobs
          (deadLetterRow i.toFailInput j (reinsertFailedRow i j) q) = false :=
        (not_refused_iff _ _ _).mpr fun x hx => copy_free hsel hfresh h hdone hj hjd _ q (hrows x hx)
      have hqueue : db.deadLetterQueue j = some q := by
        rw [Database.deadLetterQueue, hdead, Option.bind_some, ← hq, Database.queue, Database.queue,
          hsecond.queues]
      have hnext := hsecond.extend (j := j) hcopy (.inr (.inr ⟨⟨q, hqueue, rfl⟩, hfailed⟩))
        fun hno => .inr (List.mem_append_left _ (hfailed hno))
      refine ⟨_, ?_, hnext.congr (by simp)⟩
      simp [insertDeadLetterJob, hq, insertOrRaise, hcopy]

/-- One turn of the loop raises nothing and goes by one more job. -/
theorem Reinserting.step (hdb : db.Allowed) (hsel : Selection db jobs)
    (hfresh : FreshIds i.toFailInput (fun j => decide (j ∈ jobs)) db) (h : Reinserting i db jobs done cur)
    (hdone : ∀ k ∈ done, k ∈ jobs) {j : Job} (hj : j ∈ jobs) (hjd : j ∉ done) :
    ∃ cur', reinsertFailedJob i j cur = .ok cur' ∧ Reinserting i db jobs (j :: done) cur' := by
  have hfallback := h.asFailed hdb hsel hfresh hdone hj hjd
  by_cases hcan : canRetry i.toFailInput j = true
  · cases hfree : refused jobIndexes cur.jobs (reinsertRetryRow i j) with
    | true => simpa only [reinsertFailedJob, hcan, insertRetryJob, hfree, if_true, Bool.false_eq_true,
        if_false] using hfallback
    | false =>
      have hnext := h.extend (j := j) hfree (.inl rfl) fun _ => .inl (by simp)
      exact ⟨_, by simp [reinsertFailedJob, hcan, insertRetryJob, hfree], hnext⟩
  · simpa only [reinsertFailedJob, hcan, Bool.false_eq_true, if_false] using hfallback

/-- The loop raises nothing, counts every job it is given and goes by all of them. -/
theorem Reinserting.run (hdb : db.Allowed) (hsel : Selection db jobs)
    (hfresh : FreshIds i.toFailInput (fun j => decide (j ∈ jobs)) db) (rest : List Job) (count : ℕ)
    (h : Reinserting i db jobs done cur) (hdone : ∀ k ∈ done, k ∈ jobs) (hrest : ∀ k ∈ rest, k ∈ jobs)
    (hnodup : rest.Nodup) (hdisjoint : ∀ k ∈ rest, k ∉ done) :
    ∃ cur', reinsertFailedJobs i count rest cur = .ok (cur', count + rest.length) ∧
      Reinserting i db jobs (rest.reverse ++ done) cur' := by
  induction rest generalizing done cur count with
  | nil => exact ⟨cur, rfl, h⟩
  | cons j rest ih =>
    obtain ⟨hjrest, hnodup⟩ := List.nodup_cons.mp hnodup
    have hj := hrest j List.mem_cons_self
    obtain ⟨next, hturn, hnext⟩ := h.step hdb hsel hfresh hdone hj (hdisjoint j List.mem_cons_self)
    obtain ⟨cur', hrun, hcur'⟩ := ih (count + 1) hnext (by simpa [hj] using hdone)
      (fun k hk => hrest k (List.mem_cons_of_mem _ hk)) hnodup fun k hk hmem => by
        rcases List.mem_cons.mp hmem with rfl | hmem
        · exact hjrest hk
        · exact hdisjoint k (List.mem_cons_of_mem _ hk) hmem
    refine ⟨cur', ?_, hcur'.congr (by simp [or_left_comm])⟩
    rw [reinsertFailedJobs, hturn]
    simpa [Nat.add_assoc, Nat.add_comm 1] using hrun

end Step

section Call

variable {select : Job → Bool}

theorem selection_filter (hdb : db.Allowed) (hsel : ∀ j, select j = true → j.state < .completed) :
    Selection db (db.jobs.filter select) where
  mem _ hj := (List.mem_filter.mp hj).1
  nodup := hdb.nodup.filter _
  unfinished j hj := hsel j (List.mem_filter.mp hj).2

theorem failSelects_unfinished {name : String} {ids : List Uuid} {attempts : Option (List JobAttempt)} (j : Job)
    (h : failSelects name ids attempts j = true) : j.name = name ∧ j.state < .completed := by
  simp only [failSelects, named, Bool.and_eq_true, decide_eq_true_eq] at h
  exact ⟨h.1.1.1, h.1.2⟩

theorem ReinsertCall.selection (c : ReinsertCall) (now : Timestamp) (hdb : db.Allowed) :
    Selection db (c.selected now db) := by
  cases c with
  | fail name ids attempts => exact selection_filter hdb fun j hj => (failSelects_unfinished j hj).2
  | failWithOutputs name items terminal =>
    exact selection_filter hdb fun j hj => (failSelects_unfinished j hj).2
  | expire kind table queues limit =>
    have hall : Selection db (db.jobs.filter (kind.predicate now table queues db)) :=
      selection_filter hdb fun j hj => by
        simp only [Expiry.predicate, Bool.and_eq_true, decide_eq_true_eq] at hj
        simp [hj.1.1.2]
    exact ⟨fun j hj => hall.mem j (List.mem_of_mem_take hj), hall.nodup.sublist (List.take_sublist _ _),
      fun j hj => hall.unfinished j (List.mem_of_mem_take hj)⟩

/-- Deleting by queue and ids, or by keys, deletes the selected rows. -/
theorem without_eq (hdb : db.Allowed) (hsel : Selection db jobs) {p : Job → Bool}
    (hp : ∀ j ∈ db.jobs, p j = true ↔ j.jobKey ∈ jobs.map Job.jobKey) :
    { db with jobs := db.jobs.filter fun j => !p j } = db.without jobs := by
  refine congrArg (fun rows => { db with jobs := rows }) (List.filter_congr fun j hj => ?_)
  have hmem : j.jobKey ∈ jobs.map Job.jobKey ↔ j ∈ jobs := by
    refine ⟨fun h => ?_, List.mem_map_of_mem⟩
    obtain ⟨k, hk, hkey⟩ := List.mem_map.mp h
    exact hdb.eq_of_jobKey (hsel.mem k hk) hj hkey ▸ hk
  rw [Bool.eq_iff_iff, Bool.not_eq_true', ← Bool.not_eq_true, hp j hj, hmem, decide_eq_true_eq]

/-- The by-id calls delete the rows they selected. -/
theorem deleteJobsToFail_eq (hdb : db.Allowed) {name : String}
    (hselect : ∀ j, select j = true → j.name = name ∧ j.state < .completed) :
    deleteJobsToFail name ((db.jobs.filter select).map Job.id) db = db.without (db.jobs.filter select) := by
  refine without_eq hdb (selection_filter hdb fun j hj => (hselect j hj).2) fun j hj => ?_
  simp only [named, Bool.and_eq_true, decide_eq_true_eq, List.mem_map, List.mem_filter]
  constructor
  · rintro ⟨hname, k, ⟨hk, hks⟩, hid⟩
    exact ⟨k, ⟨hk, hks⟩, Prod.ext ((hselect k hks).1.trans hname.symm) hid⟩
  · rintro ⟨k, ⟨hk, hks⟩, hkey⟩
    obtain ⟨hname, hid⟩ := Prod.mk.inj hkey
    exact ⟨hname ▸ (hselect k hks).1, k, ⟨hk, hks⟩, hid⟩

/-- Every call deletes the rows it selected. -/
theorem ReinsertCall.deleteSelected_eq (c : ReinsertCall) (now : Timestamp) (hdb : db.Allowed) :
    c.deleteSelected (c.selected now db) db = db.without (c.selected now db) := by
  cases c with
  | fail name ids attempts => exact deleteJobsToFail_eq hdb failSelects_unfinished
  | failWithOutputs name items terminal => exact deleteJobsToFail_eq hdb failSelects_unfinished
  | expire kind table queues limit =>
    exact without_eq hdb ((ReinsertCall.expire kind table queues limit).selection now hdb)
      fun j _ => decide_eq_true_iff

/-- A call that selects nothing leaves the table, and any other runs the loop after its delete. -/
theorem ReinsertCall.run_deleteSelected (c : ReinsertCall) (i : ReinsertInput) :
    c.run i db = if c.selected i.now db = [] then .ok (db, 0)
      else reinsertFailedJobs (c.input i) 0 (c.selected i.now db) (c.deleteSelected (c.selected i.now db) db) := by
  have hbyId : ∀ (i : ReinsertInput) (name : String) (ids : List Uuid) (select : Job → Bool),
      (failSelected i name ids select db).map (fun p => (p.1, p.2.affected)) =
        if db.jobs.filter select = [] then .ok (db, 0)
        else reinsertFailedJobs i 0 (db.jobs.filter select)
          (deleteJobsToFail name ((db.jobs.filter select).map Job.id) db) := by
    intro i name ids select
    rw [failSelected]
    cases db.jobs.filter select with
    | nil => rfl
    | cons j rest =>
      rw [if_neg (List.cons_ne_nil j rest)]
      cases h : reinsertFailedJobs i 0 (j :: rest) (deleteJobsToFail name ((j :: rest).map Job.id) db) <;>
        simp only [h] <;> rfl
  cases c with
  | fail name ids attempts => exact hbyId _ name ids _
  | failWithOutputs name items terminal => exact hbyId _ name _ _
  | expire kind table queues limit =>
    have hexpire : expireJobsDistributed i kind table queues limit db =
        if selectJobsToExpire kind i.now table queues limit db = [] then .ok (db, 0)
        else reinsertFailedJobs { i with output := fun _ => some kind.output, forceTerminal := false } 0
          (selectJobsToExpire kind i.now table queues limit db)
          (deleteJobsByIds ((selectJobsToExpire kind i.now table queues limit db).map Job.jobKey) db) := by
      rw [expireJobsDistributed]
      cases selectJobsToExpire kind i.now table queues limit db with
      | nil => rfl
      | cons j rest => rw [if_neg (List.cons_ne_nil j rest)]
    exact hexpire

theorem ReinsertCall.run_eq (c : ReinsertCall) (i : ReinsertInput) (hdb : db.Allowed) :
    c.run i db = reinsertFailedJobs (c.input i) 0 (c.selected i.now db) (db.without (c.selected i.now db)) := by
  rw [c.run_deleteSelected]
  split
  next hjobs =>
    have hnone : db.without [] = db := by simp [Database.without]
    rw [hjobs, hnone, reinsertFailedJobs]
  next => rw [c.deleteSelected_eq i.now hdb]

/-- Every selected job is kept as its retry row or its failed row, the count is that of the jobs
kept, the other rows stay, and what is new are copies of jobs that are in the table as failed. -/
structure ReinsertConserved (i : ReinsertInput) (jobs : List Job) (db db' : Database) (count : ℕ) : Prop where
  selected : ∀ j ∈ jobs, ∃ r, (db'.jobs.filter fun k => decide (k.jobKey = j.jobKey)) = [r] ∧
    (r = reinsertRetryRow i j ∨ r = reinsertFailedRow i j)
  counted : count = jobs.countP fun j => decide (j.jobKey ∈ db'.jobs.map Job.jobKey)
  unselected : ∀ j ∈ db.jobs, j ∉ jobs → (db'.jobs.filter fun k => decide (k.jobKey = j.jobKey)) = [j]
  copied : ∀ c ∈ db'.jobs, c.jobKey ∉ db.jobs.map Job.jobKey →
    ∃ j ∈ jobs, IsCopy i db j c ∧ reinsertFailedRow i j ∈ db'.jobs

/-- What a call promises: the table as it was after a raise, and else no job lost. -/
def ReinsertCall.Conserves (c : ReinsertCall) (i : ReinsertInput) (ownPool : Bool) (rejected : Option ℕ) (db : Database) :
    Prop :=
  match db.ensureTransaction ownPool rejected (c.sent i db) with
  | (db', none) => db' = db
  | (db', some count) => ReinsertConserved (c.input i) (c.selected i.now db) db db' count

/-- The table after the loop conserves the jobs when no key was held. -/
theorem Reinserting.conserved (hsel : Selection db jobs)
    (h : Reinserting i db jobs done db') (hdone : ∀ k, k ∈ done ↔ k ∈ jobs) (hno : ¬ KeyHeld db jobs) :
    ReinsertConserved i jobs db db' jobs.length := by
  have honly : ∀ {r : Job}, r ∈ db'.jobs → (db'.jobs.filter fun k => decide (k.jobKey = r.jobKey)) = [r] :=
    fun hr => h.consistent.filter_eq_singleton (fun a b => clashes_of_jobKey) hr
  have hplaced : ∀ j ∈ jobs, ∃ r ∈ db'.jobs, r.jobKey = j.jobKey ∧
      (r = reinsertRetryRow i j ∨ r = reinsertFailedRow i j) := by
    intro j hj
    rcases h.placed hno j ((hdone j).mpr hj) with hr | hr
    · exact ⟨_, hr, rfl, .inl rfl⟩
    · exact ⟨_, hr, rfl, .inr rfl⟩
  refine ⟨fun j hj => ?_, ?_, fun j hj hnot => honly (h.kept j hj hnot), fun c hc hnew => ?_⟩
  · obtain ⟨r, hr, hkey, hrow⟩ := hplaced j hj
    exact ⟨r, hkey ▸ honly hr, hrow⟩
  · refine (List.countP_eq_length.mpr fun j hj => ?_).symm
    obtain ⟨r, hr, hkey, -⟩ := hplaced j hj
    exact decide_eq_true (hkey ▸ List.mem_map_of_mem hr)
  · have hold : ∀ {k : Job}, k ∈ done → c.jobKey = k.jobKey → False := fun hk hkey =>
      hnew (hkey ▸ List.mem_map_of_mem (hsel.mem _ ((hdone _).mp hk)))
    rcases h.origin c hc with ⟨hmem, -⟩ | ⟨j, hj, rfl | rfl | ⟨hcopy, hfailed⟩⟩
    · exact absurd (List.mem_map_of_mem hmem) hnew
    · exact (hold hj rfl).elim
    · exact (hold hj rfl).elim
    · exact ⟨j, (hdone j).mp hj, hcopy, hfailed hno⟩

/-- Two holders of one key cannot both be in the table, so one was lost. -/
theorem Reinserting.not_keyHeld (hsel : Selection db jobs) (hdb : db.Allowed)
    (h : Reinserting i db jobs done db') {count : ℕ} (hc : ReinsertConserved i jobs db db' count) :
    ¬ KeyHeld db jobs := by
  rintro ⟨j, hj, hjp, o, ho, hoj, hop, hname, hkey, hheld⟩
  have hsome := hdb.singletonKey_isSome (hsel.mem j hj) hjp
  have hrow : ∀ k ∈ jobs, ∃ r ∈ db'.jobs, r.jobKey = k.jobKey ∧ r.policy = k.policy ∧
      r.singletonKey = k.singletonKey ∧ (r.state = .active ∨ r.state = .retry ∨ r.state = .failed) := by
    intro k hk
    obtain ⟨r, hr, hrow⟩ := hc.selected k hk
    have hr := (List.mem_filter.mp (hr ▸ List.mem_singleton_self r)).1
    rcases hrow with rfl | rfl
    · exact ⟨_, hr, rfl, rfl, rfl, .inr (.inl rfl)⟩
    · exact ⟨_, hr, rfl, rfl, rfl, .inr (.inr rfl)⟩
  have horow : ∃ r ∈ db'.jobs, r.jobKey = o.jobKey ∧ r.policy = o.policy ∧ r.singletonKey = o.singletonKey ∧
      (r.state = .active ∨ r.state = .retry ∨ r.state = .failed) := by
    by_cases hmem : o ∈ jobs
    · exact hrow o hmem
    · exact ⟨o, h.kept o ho hmem, rfl, rfl, rfl, hheld.resolve_left hmem⟩
  obtain ⟨r, hr, hrkey, hrp, hrs, hrstate⟩ := hrow j hj
  obtain ⟨r', hr', hrkey', hrp', hrs', hrstate'⟩ := horow
  have hclash : clashes jobIndexes r r' = true := by
    refine jobs_clash_iff.mpr (.inr (.inr (.inr (.inr (.inr (.inr (.inl (jobI8_clash.mpr ?_))))))))
    refine ⟨⟨hrstate, hrp.trans hjp⟩, ⟨hrstate', hrp'.trans hop⟩, ?_, hrs ▸ hsome, ?_⟩
    · exact (Prod.mk.inj hrkey).1.trans (hname.symm.trans (Prod.mk.inj hrkey').1.symm)
    · rw [hrs, hrs', hkey]
  have heq := h.consistent.eq_of_clashes hr hr' hclash
  exact hoj (hdb.eq_of_jobKey ho (hsel.mem j hj) (hrkey'.symm.trans (heq ▸ hrkey)))

section Sent

/-- The inserts leave one table after another, the last of them the loop's. -/
theorem asFailedTables_last {j : Job} (h : reinsertAsFailed i j cur = .ok db') :
    (asFailedTables i j cur).getLast? = some db' := by
  simp only [reinsertAsFailed, asFailedTables] at h ⊢
  split at h
  next hdead => simp [Except.ok.inj h]
  next deadLetter hdead =>
    split at h
    next hempty => simp [hempty, Except.ok.inj h]
    next hempty => simp [hempty, h]

theorem turnTables_last {j : Job} (h : reinsertFailedJob i j cur = .ok db') :
    (turnTables i j cur).getLast? = some db' := by
  simp only [reinsertFailedJob, turnTables] at h ⊢
  by_cases hcan : canRetry i.toFailInput j = true
  · simp only [hcan, if_true] at h ⊢
    by_cases hfirst : (insertRetryJob (reinsertRetryRow i j) cur).2 = true
    · simpa [hfirst] using h
    · simp only [hfirst] at h ⊢
      simp [List.getLast?_cons, asFailedTables_last (by simpa using h)]
  · simp only [hcan] at h ⊢
    exact asFailedTables_last (by simpa using h)

theorem reinsertTables_last {count n : ℕ} (h : reinsertFailedJobs i count jobs cur = .ok (db', n)) :
    (cur :: reinsertTables i jobs cur).getLast? = some db' := by
  induction jobs generalizing cur count with
  | nil =>
    obtain ⟨rfl, -⟩ := Prod.mk.inj (Except.ok.inj h)
    rfl
  | cons j rest ih =>
    simp only [reinsertFailedJobs] at h
    split at h
    · contradiction
    rename_i next hnext
    have hturn := turnTables_last hnext
    simp only [reinsertTables, hnext]
    rw [← ih h, List.getLast?_cons, List.getLast?_append, hturn, List.getLast?_cons]
    cases (reinsertTables i rest next).getLast? <;> rfl

/-- What a call that goes through leaves is the table after its last statement. -/
theorem ReinsertCall.sent_last (c : ReinsertCall) {n : ℕ} (h : c.run i db = .ok (db', n)) :
    (c.sent i db).after db (c.statements i db) = db' := by
  have hlast : (db :: (c.sent i db).tables).getLast? = some db' := by
    rw [c.run_deleteSelected] at h
    simp only [sent]
    cases hjobs : c.selected i.now db with
    | nil =>
      rw [if_pos hjobs] at h
      simp [(Prod.mk.inj (Except.ok.inj h)).1]
    | cons j rest =>
      rw [hjobs, if_neg (List.cons_ne_nil j rest)] at h
      simpa [List.getLast?_cons] using reinsertTables_last h
  rw [Sent.after, statements]
  rw [List.getLast?_eq_getElem?, List.length_cons, Nat.add_sub_cancel] at hlast
  rw [hlast, Option.getD_some]

/-- A job the loop has not come to yet is not in the table. -/
theorem Reinserting.notMem (hsel : Selection db jobs) (hdb : db.Allowed)
    (hfresh : FreshIds i.toFailInput (fun j => decide (j ∈ jobs)) db) (h : Reinserting i db jobs done cur)
    (hdone : ∀ k ∈ done, k ∈ jobs) {j : Job} (hj : j ∈ jobs) (hjd : j ∉ done) : j ∉ cur.jobs := by
  intro hmem
  have hsame : ∀ k ∈ done, j.jobKey = k.jobKey → False := fun k hk hkey =>
    hjd (hdb.eq_of_jobKey (hsel.mem j hj) (hsel.mem k (hdone k hk)) hkey ▸ hk)
  rcases h.origin j hmem with ⟨-, hnot⟩ | ⟨k, hk, heq | heq | ⟨⟨q, -, heq⟩, -⟩⟩
  · exact hnot hj
  · exact hsame k hk (congrArg Job.jobKey heq : j.jobKey = (reinsertRetryRow i k).jobKey)
  · exact hsame k hk (congrArg Job.jobKey heq : j.jobKey = (reinsertFailedRow i k).jobKey)
  · exact hfresh.unused k (hsel.mem k (hdone k hk)) (decide_eq_true (hdone k hk)) j (hsel.mem j hj) (congrArg Job.id heq)

/-- Until the last insert of its turn a job is not in the table as it was. -/
theorem asFailedTables_lacks {j : Job} (hopen : j.state < .completed) (hj : j ∉ cur.jobs) {t : Database}
    (ht : t ∈ (asFailedTables i j cur).dropLast) : j ∉ t.jobs := by
  have hsecond : j ∉ (insertRetryJob (reinsertFailedRow i j) cur).1.jobs := fun hmem => by
    rcases insertRetryJob_mem hmem with hmem | heq
    · exact hj hmem
    · exact absurd (congrArg Job.state heq) (by rintro h; simp [h, reinsertFailedRow] at hopen)
  have hmem : t = (insertRetryJob (reinsertFailedRow i j) cur).1 := by
    simp only [asFailedTables] at ht
    split at ht
    · simp at ht
    · split at ht
      · simp at ht
      · split at ht
        · simpa using ht
        · simp at ht
  exact hmem ▸ hsecond

theorem turnTables_lacks {j : Job} (hopen : j.state < .completed) (hj : j ∉ cur.jobs) {t : Database}
    (ht : t ∈ (turnTables i j cur).dropLast) : j ∉ t.jobs := by
  simp only [turnTables] at ht
  split at ht
  · cases hfirst : refused jobIndexes cur.jobs (reinsertRetryRow i j) with
    | false => simp [insertRetryJob, hfirst] at ht
    | true =>
      have hrow : insertRetryJob (reinsertRetryRow i j) cur = (cur, false) := by simp [insertRetryJob, hfirst]
      have hne : asFailedTables i j cur ≠ [] := List.cons_ne_nil _ _
      simp only [hrow, Bool.false_eq_true, if_false, List.dropLast_cons_of_ne_nil hne] at ht
      rcases List.mem_cons.mp ht with rfl | ht
      · exact hj
      · exact asFailedTables_lacks hopen hj ht
  · exact asFailedTables_lacks hopen hj ht

/-- Until the last insert of the loop some selected job is not in the table as it was. -/
theorem reinsertTables_lacks (hdb : db.Allowed) (hsel : Selection db jobs)
    (hfresh : FreshIds i.toFailInput (fun j => decide (j ∈ jobs)) db) {rest : List Job}
    (h : Reinserting i db jobs done cur) (hdone : ∀ k ∈ done, k ∈ jobs) (hrest : ∀ k ∈ rest, k ∈ jobs)
    (hnodup : rest.Nodup) (hdisjoint : ∀ k ∈ rest, k ∉ done) {t : Database}
    (ht : t ∈ (cur :: reinsertTables i rest cur).dropLast) : ∃ k ∈ jobs, k ∉ t.jobs := by
  induction rest generalizing done cur with
  | nil => simp [reinsertTables] at ht
  | cons j rest ih =>
    obtain ⟨hjrest, hnodup⟩ := List.nodup_cons.mp hnodup
    have hj := hrest j List.mem_cons_self
    have hnot := h.notMem hsel hdb hfresh hdone hj (hdisjoint j List.mem_cons_self)
    obtain ⟨next, hturn, hnext⟩ := h.step hdb hsel hfresh hdone hj (hdisjoint j List.mem_cons_self)
    obtain ⟨front, hfront⟩ := List.getLast?_eq_some_iff.mp (turnTables_last hturn)
    have htables : cur :: reinsertTables i (j :: rest) cur = (cur :: front) ++ (next :: reinsertTables i rest next) := by
      simp [reinsertTables, hturn, hfront]
    rw [htables, List.dropLast_append_of_ne_nil (List.cons_ne_nil _ _)] at ht
    rcases List.mem_append.mp ht with ht | ht
    · refine ⟨j, hj, ?_⟩
      rcases List.mem_cons.mp ht with rfl | ht
      · exact hnot
      · refine turnTables_lacks (i := i) (hsel.unfinished j hj) hnot ?_
        rwa [hfront, List.dropLast_concat]
    · refine ih hnext (by simpa [hj] using hdone) (fun k hk => hrest k (List.mem_cons_of_mem _ hk)) hnodup
        (fun k hk hmem => ?_) ht
      rcases List.mem_cons.mp hmem with rfl | hmem
      · exact hjrest hk
      · exact hdisjoint k (List.mem_cons_of_mem _ hk) hmem

/-- When a statement is rejected, the table is as it was up to the delete, and is not from there on. -/
theorem ReinsertCall.after_eq_iff (c : ReinsertCall) (i : ReinsertInput) (hdb : db.Allowed)
    (hfresh : FreshIds (c.input i).toFailInput (fun j => decide (j ∈ c.selected i.now db)) db) {n : ℕ}
    (hn : n < c.statements i db) : (c.sent i db).after db n = db ↔ n < 2 := by
  have hsel := c.selection i.now hdb
  have hlacks : ∀ t ∈ (db.without (c.selected i.now db) ::
      reinsertTables (c.input i) (c.selected i.now db) (db.without (c.selected i.now db))).dropLast,
        ∃ k ∈ c.selected i.now db, k ∉ t.jobs := fun t ht =>
    reinsertTables_lacks hdb hsel hfresh (reinserting_nil hdb) (by simp) (fun _ hk => hk) hsel.nodup (by simp) ht
  have hdelete := c.deleteSelected_eq i.now hdb
  simp only [statements, Sent.after, sent] at hn ⊢
  cases hjobs : c.selected i.now db with
  | nil =>
    simp only [hjobs, List.length_singleton, Nat.lt_one_iff] at hn
    simp [hn]
  | cons j rest =>
    rw [hjobs] at hlacks hdelete hsel
    simp only [hjobs, List.length_cons, hdelete] at hn ⊢
    match n with
    | 0 => simp
    | 1 => simp
    | n + 2 =>
      have hlt : n < ((db.without (j :: rest)) :: reinsertTables (c.input i) (j :: rest) (db.without (j :: rest))).length := by
        rw [List.length_cons]
        omega
      have hmem := List.getElem_mem (l := ((db.without (j :: rest)) ::
        reinsertTables (c.input i) (j :: rest) (db.without (j :: rest))).dropLast) (n := n) (by
          rw [List.length_dropLast, List.length_cons]
          omega)
      obtain ⟨k, hk, hnot⟩ := hlacks _ hmem
      rw [List.getElem_dropLast] at hnot
      have hafter : ((db :: db :: db.without (j :: rest) ::
          reinsertTables (c.input i) (j :: rest) (db.without (j :: rest)))[n + 2]?).getD db =
            (db.without (j :: rest) :: reinsertTables (c.input i) (j :: rest) (db.without (j :: rest)))[n] := by
        rw [List.getElem?_cons_succ, List.getElem?_cons_succ, List.getElem?_eq_getElem hlt, Option.getD_some]
      rw [hafter]
      refine iff_of_false (fun heq => hnot ?_) (by omega)
      rw [heq]
      exact hsel.mem k hk

end Sent

/-- Active jobs hold their keys themselves: the sweeps and the per-job settles find none held. -/
theorem not_keyHeld_of_active (hdb : db.Allowed) (hsel : Selection db jobs)
    (hactive : ∀ j ∈ jobs, j.state = .active) : ¬ KeyHeld db jobs := by
  rintro ⟨j, hj, hjp, o, ho, hoj, hop, hname, hkey, hheld⟩
  have hostate : o.state = .active ∨ o.state = .retry ∨ o.state = .failed :=
    hheld.elim (fun hmem => .inl (hactive o hmem)) id
  refine hoj (hdb.consistent.eq_of_clashes ho (hsel.mem j hj) ?_)
  refine jobs_clash_iff.mpr (.inr (.inr (.inr (.inr (.inr (.inr (.inl (jobI8_clash.mpr ?_))))))))
  exact ⟨⟨hostate, hop⟩, ⟨.inl (hactive j hj), hjp⟩, hname, hkey ▸ hdb.singletonKey_isSome (hsel.mem j hj) hjp, hkey⟩

/-- A call that goes through loses no job, and counts and copies only jobs it kept, exactly when no selected job
shares a `key_strict_fifo` key with another selected job or with one that holds it. One that a rejected statement
raises from leaves the table as it was exactly where it runs on pg-boss's own pool or had not deleted yet. -/
theorem reinsert_conserves_iff (c : ReinsertCall) (i : ReinsertInput) (ownPool : Bool) (rejected : Option ℕ)
    (db : Database) (hdb : db.Allowed)
    (hfresh : FreshIds (c.input i).toFailInput (fun j => decide (j ∈ c.selected i.now db)) db)
    (hsent : ∀ n ∈ rejected, n < c.statements i db) :
    c.Conserves i ownPool rejected db ↔
      rejected.elim (¬ KeyHeld db (c.selected i.now db)) fun n => ownPool = true ∨ n < 2 := by
  cases rejected with
  | none =>
    have hsel := c.selection i.now hdb
    obtain ⟨db', hrun, hloop⟩ := (reinserting_nil (i := c.input i) hdb).run hdb hsel hfresh
      (c.selected i.now db) 0 (by simp) (fun _ hk => hk) hsel.nodup (by simp)
    rw [← c.run_eq i hdb, Nat.zero_add] at hrun
    have hresult : c.Conserves i ownPool none db ↔ ReinsertConserved (c.input i) (c.selected i.now db) db db'
        (c.selected i.now db).length := by
      simp only [ReinsertCall.Conserves, Database.ensureTransaction, ReinsertCall.sent, hrun]
    rw [hresult]
    exact ⟨fun hc => hloop.not_keyHeld hsel hdb hc, hloop.conserved hsel (by simp)⟩
  | some n =>
    have hafter := c.after_eq_iff i hdb hfresh (hsent n rfl)
    cases ownPool with
    | true => simp [ReinsertCall.Conserves, Database.ensureTransaction]
    | false => simpa [ReinsertCall.Conserves, Database.ensureTransaction] using hafter

end Call

section HeldKey

/-- A queue of the shared table. -/
def plainQueue (name : String) (policy : QueuePolicy) (deadLetter : Option String) : Queue :=
  { statelyQueue name with policy, deadLetter }

/-- A job of a strict FIFO queue with a dead letter queue, under one key. -/
def fifoJob (id : Uuid) (state : JobState) : Job where
  id := id
  name := "fifo"
  state := state
  singletonKey := some "k"
  deadLetter := some "dead"
  startAfter := 0
  createdOn := 0
  keepUntil := 0
  policy := some .keyStrictFifo

/-- One job of the key runs and one is queued behind it. -/
def heldKeyDatabase : Database where
  jobs := [fifoJob 1 .active, fifoJob 2 .created]
  queues := [plainQueue "fifo" .keyStrictFifo (some "dead"), plainQueue "dead" .standard none]

/-- A caller fails the queued job. -/
def failQueued : ReinsertCall := .fail "fifo" [2] none

/-- A caller fails the running job. -/
def failRunning : ReinsertCall := .fail "fifo" [1] none

/-- What the calls draw. -/
def heldKeyInput : ReinsertInput where
  now := 0
  random := fun _ => 0
  newId := fun _ => 10
  output := fun _ => none
  clock := 0

theorem heldKeyDatabase_allowed : heldKeyDatabase.Allowed := ⟨by decide, by decide⟩

/-- The queued job is deleted, both its rows are refused, and it is counted and copied. And the running one is gone where
its first insert is rejected and no transaction takes the delete back. -/
theorem failQueued_loses : heldKeyDatabase.Allowed ∧
    fifoJob 2 .created ∈ failQueued.selected heldKeyInput.now heldKeyDatabase ∧
    (∃ db' : Database, failQueued.run heldKeyInput heldKeyDatabase = .ok (db', 1) ∧
      (∀ r ∈ db'.jobs, r.jobKey ≠ (fifoJob 2 .created).jobKey) ∧
      ∃ c ∈ db'.jobs, c.name = "dead" ∧ c.sourceId = some 2) ∧
    ¬ failQueued.Conserves heldKeyInput true none heldKeyDatabase ∧
    ((failRunning.sent heldKeyInput heldKeyDatabase).after heldKeyDatabase 2).jobs = [fifoJob 2 .created] ∧
    ¬ failRunning.Conserves heldKeyInput false (some 2) heldKeyDatabase := by
  refine ⟨heldKeyDatabase_allowed, by decide, ⟨_, rfl, by decide, by decide⟩, fun hc => ?_, by decide, fun hc => ?_⟩
  · obtain ⟨r, hr, -⟩ := ReinsertConserved.selected hc (fifoJob 2 .created) (by decide)
    have hone : _ = 1 := congrArg List.length hr
    exact absurd hone (by decide)
  · exact absurd (congrArg (fun db : Database => db.jobs.length) hc) (by decide)

/-- The theorem at four calls: failing the job that holds the key keeps it, failing the one behind it does not, and a
call whose first insert is rejected leaves the table as it was on pg-boss's own pool and not inline. -/
theorem reinsert_conserves_iff_fifo : failRunning.Conserves heldKeyInput true none heldKeyDatabase ∧
    ¬ failQueued.Conserves heldKeyInput true none heldKeyDatabase ∧
    failRunning.Conserves heldKeyInput true (some 2) heldKeyDatabase ∧
    ¬ failRunning.Conserves heldKeyInput false (some 2) heldKeyDatabase := by
  have hfresh : ∀ c ∈ [failRunning, failQueued], FreshIds (c.input heldKeyInput).toFailInput
      (fun j => decide (j ∈ c.selected heldKeyInput.now heldKeyDatabase)) heldKeyDatabase := by
    simp only [List.forall_mem_cons]
    exact ⟨⟨by decide, by decide⟩, ⟨by decide, by decide⟩, by simp⟩
  have hrunning := hfresh failRunning (by simp)
  have hnone : ∀ {c : ReinsertCall}, ∀ n ∈ (none : Option ℕ), n < c.statements heldKeyInput heldKeyDatabase := nofun
  have hsent : ∀ n ∈ some 2, n < failRunning.statements heldKeyInput heldKeyDatabase := by
    rintro n ⟨⟩
    decide
  refine ⟨(reinsert_conserves_iff _ _ _ none _ heldKeyDatabase_allowed hrunning hnone).mpr ?_, ?_,
    (reinsert_conserves_iff _ _ _ (some 2) _ heldKeyDatabase_allowed hrunning hsent).mpr (.inl rfl), ?_⟩
  · simp only [Option.elim_none]
    unfold KeyHeld; decide
  · rw [reinsert_conserves_iff _ _ _ none _ heldKeyDatabase_allowed (hfresh _ (by simp)) hnone, Option.elim_none, not_not]
    unfold KeyHeld; decide
  · rw [reinsert_conserves_iff _ _ _ (some 2) _ heldKeyDatabase_allowed hrunning hsent, Option.elim_some]
    decide

end HeldKey

end PgBoss
