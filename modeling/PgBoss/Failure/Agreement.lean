import PgBoss.Failure.Distributed

/-!
# The two failure paths compared

`failJobsBody` and the loop of `reinsertFailedJobs` make the same transition, once in SQL and
once in JavaScript. They part in the `start_after` of a job that ends failed, which the statement
moves unless `retry_count` equals `retry_limit`; in a JSON null of the row, which the loop binds as
the null of SQL; in the fraction of a backoff delay, which a `Date` drops; and in the rows a retry
is checked against, since the statement deletes one row at a time and the loop starts when all are
gone. Where none of this comes up, and both return, they leave the same rows.
-/

namespace PgBoss

open Relational

/-- The same call on the multi-statement path. -/
def FailCall.reinsert : FailCall → ReinsertCall
  | fail name ids attempts => .fail name ids attempts
  | failWithOutputs name items terminal => .failWithOutputs name items terminal
  | expire kind table queues limit => .expire kind table queues limit

/-- The rows the call picks from: of a sweep, those its predicate matches. -/
def FailCall.matched (now : Timestamp) (db : Database) : FailCall → Job → Bool
  | fail name ids attempts => failSelects name ids attempts
  | failWithOutputs name items _ => failItemSelects name items
  | expire kind table queues _ => kind.predicate now table queues db

/-- The instant of a `Date` so many seconds from the client's clock. -/
def clientInstant (i : ReinsertInput) (delay : ℚ) : Timestamp := newDate (i.clock + delay * 1000)

/-- Both paths compute the same `start_after` for a job: one that ends failed keeps it in the statement
too, and a backoff delay has no fraction of a millisecond. -/
def SameStart (i : ReinsertInput) (j : Job) : Prop :=
  if canRetry i.toFailInput j then
    j.retryBackoff = true → clientInstant i (backoffDelay (i.random j) j) = i.now + interval (backoffDelay (i.random j) j)
  else (retryRow i.toFailInput j).startAfter = j.startAfter

/-- None of the json columns that the loop binds again holds a JSON null. -/
def NoJsonNull (j : Job) : Prop := j.data ≠ some "null" ∧ j.sourceOutput ≠ some "null" ∧ j.traceContext ≠ some "null"

instance (j : Job) : Decidable (NoJsonNull j) := inferInstanceAs (Decidable (_ ∧ _))

/-- The call does not bring out a difference between the paths. -/
structure PathsMeet (c : FailCall) (i : ReinsertInput) (db : Database) : Prop where
  ids : ∀ j ∈ db.jobs, ∀ k ∈ db.jobs, c.matched i.now db j = true → c.matched i.now db k = true →
    j.id = k.id → j = k
  outputs : ∀ j ∈ db.jobs, c.selects i.now db j = true →
    (c.reinsert.input i).output j = (c.input i.toFailInput).output j
  nulls : ∀ j ∈ db.jobs, c.selects i.now db j = true → NoJsonNull j
  starts : ∀ j ∈ db.jobs, c.selects i.now db j = true → SameStart (c.reinsert.input i) j
  order : (db.jobs.filter (c.selects i.now db)).Pairwise fun j k =>
    canRetry (c.reinsert.input i).toFailInput j = true →
      clashes jobIndexes (retryRow (c.reinsert.input i).toFailInput j) k = false

variable {i : FailInput} {db : Database} {select : Job → Bool} {j k r : Job}

section Statement

/-- A deleted row whose first re-insert is refused meets a row that stays, one deleted after it, or the
retry of one deleted before. -/
theorem retriedJobs_refused {rows kept before after : List Job}
    (hrows : rows.Perm (kept ++ (before ++ j :: after)))
    (hrefused : j ∉ (retriedJobs i rows (before ++ j :: after)).2) :
    ∃ x, (x ∈ kept ∨ x ∈ after ∨ ∃ k ∈ before, k ∈ (retriedJobs i rows (before ++ j :: after)).2 ∧ x = retryRow i k) ∧
      clashes jobIndexes (retryRow i j) x = true := by
  induction before generalizing rows kept with
  | nil =>
    have herase : (rows.erase j).Perm (kept ++ after) := by
      have hcons := (hrows.trans List.perm_middle).erase j
      rwa [List.erase_cons_head] at hcons
    simp only [List.nil_append, retriedJobs] at hrefused
    split at hrefused
    · rename_i hclash
      obtain ⟨x, hx, hclash⟩ := (refused_iff _ _ _).mp hclash
      exact ⟨x, (List.mem_append.mp (herase.mem_iff.mp hx)).imp_right .inl, hclash⟩
    · exact absurd List.mem_cons_self hrefused
  | cons p before ih =>
    have herase : (rows.erase p).Perm (kept ++ (before ++ j :: after)) := by
      have hcons := (hrows.trans List.perm_middle).erase p
      rwa [List.erase_cons_head] at hcons
    simp only [List.cons_append, retriedJobs] at hrefused ⊢
    split at hrefused
    · rename_i hclash
      obtain ⟨x, hx, hxj⟩ := ih herase hrefused
      simp only [hclash, if_true]
      exact ⟨x, hx.imp_right (.imp_right fun hk => hk.imp fun _ h => ⟨List.mem_cons_of_mem _ h.1, h.2⟩), hxj⟩
    · rename_i hfree
      have hnext : (rows.erase p ++ [retryRow i p]).Perm ((kept ++ [retryRow i p]) ++ (before ++ j :: after)) := by
        refine (herase.append_right _).trans ?_
        simpa using (@List.perm_append_comm _ (before ++ j :: after) [retryRow i p]).append_left kept
      obtain ⟨x, hx, hxj⟩ := ih hnext fun h => hrefused (List.mem_cons_of_mem _ h)
      simp only [hfree]
      refine ⟨x, ?_, hxj⟩
      rcases hx with hx | hx | ⟨k, hk, hmem, rfl⟩
      · rcases List.mem_append.mp hx with hx | hx
        · exact .inl hx
        · exact .inr (.inr ⟨p, List.mem_cons_self, List.mem_cons_self, List.mem_singleton.mp hx⟩)
      · exact .inr (.inl hx)
      · exact .inr (.inr ⟨k, List.mem_cons_of_mem _ hk, List.mem_cons_of_mem _ hmem, rfl⟩)

/-- The row a selected job ends as, when the statement accepted some first re-inserts. -/
def endRow (i : FailInput) (accepted : List Job) (j : Job) : Job :=
  if j ∈ accepted then retryRow i j else failedRow i j

/-- The dead letter copy of a job that ends as the row `r`. -/
def endCopy (i : FailInput) (db : Database) (j r : Job) : Option Job :=
  if r.state = .failed then (db.deadLetterQueue r).map (deadLetterRow i j r) else none

/-- The rows a selected job leaves. -/
def endRows (i : FailInput) (accepted : List Job) (db : Database) (j : Job) : List Job :=
  endRow i accepted j :: (endCopy i db j (endRow i accepted j)).toList

/-- Where no two selected jobs share an id, each is in one of the two re-inserts. -/
theorem accepted_failures_perm (hdb : db.Allowed)
    (hids : ∀ j ∈ db.jobs, ∀ k ∈ db.jobs, select j = true → select k = true → j.id = k.id → j = k) :
    (acceptedRetries i select db ++ insertedFailures i select db).Perm (db.jobs.filter select) := by
  have hnodup : (db.jobs.filter select).Nodup := hdb.nodup.filter _
  have hdisjoint : (acceptedRetries i select db).Disjoint (insertedFailures i select db) := fun j hj hfailed =>
    (insertedFailures_mem.mp hfailed).2 (List.mem_map_of_mem hj)
  have hfailures : (insertedFailures i select db).Nodup := hnodup.filter _
  refine (List.perm_ext_iff_of_nodup ((acceptedRetries_sublist.nodup hnodup).append hfailures hdisjoint) hnodup).mpr
    fun j => ?_
  rw [List.mem_append, insertedFailures_mem]
  constructor
  · rintro (hj | ⟨hj, -⟩)
    · exact acceptedRetries_sublist.mem hj
    · exact List.mem_filter.mpr hj
  · intro hj
    by_cases hmem : j ∈ acceptedRetries i select db
    · exact .inl hmem
    · refine .inr ⟨List.mem_filter.mp hj, fun hid => ?_⟩
      obtain ⟨k, hk, hkj⟩ := List.mem_map.mp hid
      obtain ⟨hkdb, hks⟩ := acceptedRetries_mem hk
      obtain ⟨hjdb, hjs⟩ := List.mem_filter.mp hj
      exact hmem (hids k hkdb j hjdb hks hjs hkj ▸ hk)

/-- The rows the statement leaves, job by job. -/
theorem failJobsBody_rows {db' : Database} {res : List Job} (hdb : db.Allowed)
    (hids : ∀ j ∈ db.jobs, ∀ k ∈ db.jobs, select j = true → select k = true → j.id = k.id → j = k)
    (h : failJobsBody i select db = .ok (db', res)) :
    db'.jobs.Perm (db.kept select ++
      (db.jobs.filter select).flatMap (endRows i (acceptedRetries i select db) db)) := by
  have hperm := accepted_failures_perm (i := i) hdb hids
  have hretried : ∀ j ∈ acceptedRetries i select db, endRow i (acceptedRetries i select db) j = retryRow i j :=
    fun j hj => if_pos hj
  have hfailed : ∀ j ∈ insertedFailures i select db, endRow i (acceptedRetries i select db) j = failedRow i j :=
    fun j hj => if_neg fun hmem => (insertedFailures_mem.mp hj).2 (List.mem_map_of_mem hmem)
  have hrows : (acceptedRetries i select db).map (retryRow i) ++ (insertedFailures i select db).map (failedRow i) =
      (acceptedRetries i select db ++ insertedFailures i select db).map (endRow i (acceptedRetries i select db)) := by
    rw [List.map_append, List.map_congr_left hretried, List.map_congr_left hfailed]
  have hcopies : deadLetterCopies i select db = (acceptedRetries i select db ++ insertedFailures i select db).flatMap
      fun j => (endCopy i db j (endRow i (acceptedRetries i select db) j)).toList := by
    have hresults : failResults i (acceptedRetries i select db) (insertedFailures i select db) =
        (acceptedRetries i select db ++ insertedFailures i select db).map
          fun j => (j, endRow i (acceptedRetries i select db) j) := by
      rw [failResults, List.map_append, List.map_congr_left fun j hj => congrArg (Prod.mk j) (hretried j hj),
        List.map_congr_left fun j hj => congrArg (Prod.mk j) (hfailed j hj)]
    rw [deadLetterCopies, dlqJobs, hresults, List.filterMap_map, List.filterMap_eq_flatMap_toList]
    rfl
  refine (failJobsBody_ok h).1.trans ?_
  rw [List.append_assoc (db.kept select), hrows, hcopies, List.append_assoc]
  exact ((List.map_append_flatMap_perm _ _ _).trans (hperm.flatMap_right _)).append_left _

end Statement

section Loop

variable {i : ReinsertInput} {db cur next : Database} {accepted done : List Job} {j : Job}

/-- A row that is not refused comes back from its insert. -/
theorem insertRetryJob_free {row : Job} (hfree : refused jobIndexes cur.jobs row = false) :
    insertRetryJob row cur = ({ cur with jobs := cur.jobs ++ [row] }, true) := by
  rw [insertRetryJob, if_neg (hfree ▸ Bool.false_ne_true)]

/-- In a consistent table the row after others is refused by none of them. -/
theorem refused_of_consistent {rows after : List Job} {row : Job} (h : Consistent jobIndexes (rows ++ row :: after)) :
    refused jobIndexes rows row = false :=
  (not_refused_iff _ _ _).mpr fun x hx =>
    (clashes_symm _ _ _).trans ((consistent_append.mp h).2.2 x hx row List.mem_cons_self)

/-- A job that ends failed leaves its failed row and its copy. -/
theorem reinsertAsFailed_endRows (hqueues : cur.queues = db.queues) (hname : db.queue "" = none)
    (hrow : endRow i.toFailInput accepted j = failedRow i.toFailInput j)
    (hfits : Consistent jobIndexes (cur.jobs ++ endRows i.toFailInput accepted db j))
    (hclock : reinsertFailedRow i j = failedRow i.toFailInput j) (h : reinsertAsFailed i j cur = .ok next) :
    next.jobs = cur.jobs ++ endRows i.toFailInput accepted db j ∧ next.queues = db.queues ∧
      next.dependencies = cur.dependencies := by
  have hqueue : ∀ name, cur.queue name = db.queue name := fun name => by
    rw [Database.queue, Database.queue, hqueues]
  have hfree := refused_of_consistent hfits
  rw [endRows, hrow] at hfits ⊢
  rw [hrow] at hfree
  have hcopy : endCopy i.toFailInput db j (failedRow i.toFailInput j) =
      (db.deadLetterQueue j).map (deadLetterRow i.toFailInput j (failedRow i.toFailInput j)) := if_pos rfl
  rw [hcopy, Database.deadLetterQueue]
  simp only [reinsertAsFailed, insertRetryJob_free hfree, hclock] at h
  split at h
  · rename_i hdead
    obtain rfl := Except.ok.inj h
    exact ⟨by simp [hdead], hqueues, rfl⟩
  rename_i deadLetter hdead
  rw [hdead, Option.bind_some]
  split at h
  · rename_i hempty
    obtain rfl := Except.ok.inj h
    exact ⟨by simp [hempty, hname], hqueues, rfl⟩
  simp only [insertDeadLetterJob] at h
  split at h
  · rename_i hnone
    obtain rfl := Except.ok.inj h
    rw [← hqueue]
    exact ⟨by rw [show cur.queue deadLetter = none from hnone]; rfl, hqueues, rfl⟩
  rename_i q hq
  split at h
  · contradiction
  rename_i jobs hjobs
  obtain rfl := Except.ok.inj h
  rw [← hqueue]
  refine ⟨?_, hqueues, rfl⟩
  rw [insertOrRaise_eq_some hjobs, show cur.queue deadLetter = some q from hq]
  simp

/-- One turn of the loop adds the rows the job ends as, if those fit into the table and the retry row is
refused when it was refused before. -/
theorem reinsertFailedJob_endRows (hqueues : cur.queues = db.queues) (hname : db.queue "" = none)
    (hfits : Consistent jobIndexes (cur.jobs ++ endRows i.toFailInput accepted db j))
    (hretry : canRetry i.toFailInput j = true → retryRow i.toFailInput j = reinsertRetryRow i j)
    (hrefused : canRetry i.toFailInput j = true → j ∉ accepted →
      refused jobIndexes cur.jobs (retryRow i.toFailInput j) = true)
    (hend : canRetry i.toFailInput j = false → retryRow i.toFailInput j = failedRow i.toFailInput j)
    (hclock : reinsertFailedRow i j = failedRow i.toFailInput j)
    (h : reinsertFailedJob i j cur = .ok next) :
    next.jobs = cur.jobs ++ endRows i.toFailInput accepted db j ∧ next.queues = db.queues ∧
      next.dependencies = cur.dependencies := by
  simp only [reinsertFailedJob] at h
  cases hcan : canRetry i.toFailInput j with
  | false =>
    have hrow : endRow i.toFailInput accepted j = failedRow i.toFailInput j := by
      rw [endRow]
      split
      · exact hend hcan
      · rfl
    simp only [hcan, Bool.false_eq_true, if_false] at h
    exact reinsertAsFailed_endRows hqueues hname hrow hfits hclock h
  | true =>
    simp only [hcan, if_true, ← hretry hcan] at h
    by_cases hmem : j ∈ accepted
    · have hrow : endRow i.toFailInput accepted j = retryRow i.toFailInput j := if_pos hmem
      have hfree := refused_of_consistent hfits
      rw [hrow] at hfree
      simp only [insertRetryJob_free hfree, if_true] at h
      obtain rfl := Except.ok.inj h
      have hcopy : endCopy i.toFailInput db j (retryRow i.toFailInput j) = none := by
        simp [endCopy, retryRow_state, hcan]
      exact ⟨by simp [endRows, hrow, hcopy], hqueues, rfl⟩
    · have hfirst : insertRetryJob (retryRow i.toFailInput j) cur = (cur, false) := by
        rw [insertRetryJob, if_pos (hrefused hcan hmem)]
      simp only [hfirst, Bool.false_eq_true, if_false] at h
      exact reinsertAsFailed_endRows hqueues hname (if_neg hmem) hfits hclock h

/-- The loop leaves the rows its jobs end as, if those fit into the table together and every retry row is
refused when it was refused before. -/
theorem reinsertFailedJobs_endRows {base before rest : List Job} {count n : ℕ} (hqueues : cur.queues = db.queues)
    (hname : db.queue "" = none)
    (hfits : Consistent jobIndexes (base ++ (before ++ rest).flatMap (endRows i.toFailInput accepted db)))
    (hretry : ∀ j ∈ rest, canRetry i.toFailInput j = true → retryRow i.toFailInput j = reinsertRetryRow i j)
    (hend : ∀ j ∈ rest, canRetry i.toFailInput j = false → retryRow i.toFailInput j = failedRow i.toFailInput j)
    (hclock : ∀ j ∈ rest, reinsertFailedRow i j = failedRow i.toFailInput j)
    (hrefused : ∀ pre j post, before ++ rest = pre ++ j :: post → canRetry i.toFailInput j = true → j ∉ accepted →
      refused jobIndexes (base ++ pre.flatMap (endRows i.toFailInput accepted db)) (retryRow i.toFailInput j) = true)
    (hcur : cur.jobs = base ++ before.flatMap (endRows i.toFailInput accepted db))
    (h : reinsertFailedJobs i count rest cur = .ok (next, n)) :
    next.jobs = base ++ (before ++ rest).flatMap (endRows i.toFailInput accepted db) ∧
      next.queues = db.queues ∧ next.dependencies = cur.dependencies := by
  induction rest generalizing before cur count with
  | nil =>
    obtain ⟨rfl, -⟩ := Prod.mk.inj (Except.ok.inj h)
    exact ⟨by rw [hcur, List.append_nil], hqueues, rfl⟩
  | cons j rest ih =>
    simp only [reinsertFailedJobs] at h
    split at h
    · contradiction
    rename_i mid hmid
    have hsplit : before ++ j :: rest = (before ++ [j]) ++ rest := by simp
    have hfitsj : Consistent jobIndexes (cur.jobs ++ endRows i.toFailInput accepted db j) := by
      refine hfits.sublist ?_
      rw [hcur, hsplit, List.flatMap_append, List.flatMap_append, List.flatMap_singleton, List.append_assoc]
      exact (List.sublist_append_left _ _).append_left _
    obtain ⟨hjobs, hmidqueues, hmiddeps⟩ := reinsertFailedJob_endRows hqueues hname hfitsj
      (hretry j List.mem_cons_self) (fun hcan hmem => hcur ▸ hrefused before j rest rfl hcan hmem)
      (hend j List.mem_cons_self) (hclock j List.mem_cons_self) hmid
    obtain ⟨hnext, hnextqueues, hdeps⟩ := ih hmidqueues (hsplit ▸ hfits)
      (fun k hk => hretry k (List.mem_cons_of_mem _ hk)) (fun k hk => hend k (List.mem_cons_of_mem _ hk))
      (fun k hk => hclock k (List.mem_cons_of_mem _ hk)) (hsplit ▸ hrefused)
      (by rw [hjobs, hcur, List.flatMap_append, List.flatMap_singleton, List.append_assoc]) h
    exact ⟨hsplit ▸ hnext, hnextqueues, hdeps.trans hmiddeps⟩

end Loop

section Agreement

variable {i : ReinsertInput} {select : Job → Bool} {db db₁ db₂ : Database} {res : List Job} {n : ℕ} {j : Job}

/-- A whole number of milliseconds is the same instant on both clocks. -/
theorem newDate_int (t : Int) : newDate t = t * 1000 := by
  rw [newDate]
  split <;> simp

theorem NoJsonNull.rebound_eq (h : NoJsonNull j) : rebound j = j := by
  rw [rebound, toJsonText_eq h.1, toJsonText_eq h.2.1, toJsonText_eq h.2.2]

/-- The failed rows of the two paths are one row, when the clocks agree. -/
theorem reinsertFailedRow_eq (hclock : i.now = i.clock * 1000) (hnulls : NoJsonNull j) :
    reinsertFailedRow i j = failedRow i.toFailInput j := by
  simp only [reinsertFailedRow, failedRow, hnulls.rebound_eq, newDate_int, hclock]

/-- The retry rows are one row, when the clocks agree and the start does. -/
theorem reinsertRetryRow_eq (hclock : i.now = i.clock * 1000) (hnulls : NoJsonNull j) (hstart : SameStart i j)
    (hcan : canRetry i.toFailInput j = true) : retryRow i.toFailInput j = reinsertRetryRow i j := by
  have hlimit : ¬ (j.retryCount : Int) = j.retryLimit := by
    simp only [canRetry, Bool.and_eq_true, decide_eq_true_eq] at hcan
    omega
  rw [SameStart, if_pos hcan, clientInstant] at hstart
  simp only [retryRow, reinsertRetryRow, hnulls.rebound_eq, hcan, if_true, hlimit, if_false]
  cases hbackoff : j.retryBackoff with
  | true =>
    simp only [Bool.not_true, Bool.false_eq_true, if_false]
    rw [hstart hbackoff]
  | false =>
    have hdelay : ((i.clock : ℚ) + (j.retryDelay : ℚ) * 1000) = ((i.clock + j.retryDelay * 1000 : Int) : ℚ) := by
      push_cast
      rfl
    simp only [Bool.not_false, if_true]
    rw [hdelay, newDate_int, hclock, seconds]
    congr 1
    ring

/-- A job that ends failed has one row in the statement, whichever insert takes it. -/
theorem retryRow_eq_failedRow (hstart : SameStart i j) (hcan : canRetry i.toFailInput j = false) :
    retryRow i.toFailInput j = failedRow i.toFailInput j := by
  rw [SameStart, if_neg (hcan ▸ Bool.false_ne_true)] at hstart
  simp only [retryRow] at hstart
  simp only [retryRow, failedRow, hcan, Bool.false_eq_true, if_false, hstart]

/-- A retry that the statement refused is refused by what the loop has put back so far. -/
theorem refused_before {base pre post : List Job} {rows : List Job}
    (hrows : rows.Perm (base ++ (pre ++ j :: post)))
    (horder : ∀ k ∈ post, clashes jobIndexes (retryRow i.toFailInput j) k = false)
    (hrefused : j ∉ (retriedJobs i.toFailInput rows (pre ++ j :: post)).2) :
    refused jobIndexes (base ++ pre.flatMap
      (endRows i.toFailInput (retriedJobs i.toFailInput rows (pre ++ j :: post)).2 db))
        (retryRow i.toFailInput j) = true := by
  obtain ⟨x, hx, hclash⟩ := retriedJobs_refused hrows hrefused
  refine (refused_iff _ _ _).mpr ⟨x, ?_, hclash⟩
  rcases hx with hx | hx | ⟨k, hk, hmem, rfl⟩
  · exact List.mem_append_left _ hx
  · simp [horder x hx] at hclash
  · refine List.mem_append_right _ (List.mem_flatMap.mpr ⟨k, hk, ?_⟩)
    rw [endRows, endRow, if_pos hmem]
    exact List.mem_cons_self

/-- The statement and the loop leave the same rows. -/
theorem bodies_agree (hdb : db.Allowed) (hname : db.queue "" = none) (hclock : i.now = i.clock * 1000)
    (hids : ∀ j ∈ db.jobs, ∀ k ∈ db.jobs, select j = true → select k = true → j.id = k.id → j = k)
    (hnulls : ∀ j ∈ db.jobs, select j = true → NoJsonNull j)
    (hstarts : ∀ j ∈ db.jobs, select j = true → SameStart i j)
    (horder : (db.jobs.filter select).Pairwise fun j k => canRetry i.toFailInput j = true →
      clashes jobIndexes (retryRow i.toFailInput j) k = false)
    (hbody : failJobsBody i.toFailInput select db = .ok (db₁, res))
    (hloop : reinsertFailedJobs i 0 (db.jobs.filter select) (db.without (db.jobs.filter select)) = .ok (db₂, n)) :
    db₁.jobs.Perm db₂.jobs ∧ db₁.queues = db₂.queues ∧ db₁.dependencies = db₂.dependencies := by
  have hrows := failJobsBody_rows hdb hids hbody
  have hconsistent := ((failJobsBody_ok hbody).2.1 hdb).perm hrows
  have hkept : (db.without (db.jobs.filter select)).jobs = db.kept select := by
    refine List.filter_congr fun j hj => ?_
    simp [List.mem_filter, hj]
  have hmem : ∀ {j : Job}, j ∈ db.jobs.filter select → j ∈ db.jobs ∧ select j = true := List.mem_filter.mp
  have hleft : db₂.jobs = db.kept select ++ ([] ++ db.jobs.filter select).flatMap
        (endRows i.toFailInput (acceptedRetries i.toFailInput select db) db) ∧
      db₂.queues = db.queues ∧ db₂.dependencies = (db.without (db.jobs.filter select)).dependencies := by
    refine reinsertFailedJobs_endRows rfl hname hconsistent
      (fun j hj => reinsertRetryRow_eq hclock (hnulls j (hmem hj).1 (hmem hj).2) (hstarts j (hmem hj).1 (hmem hj).2))
      (fun j hj => retryRow_eq_failedRow (hstarts j (hmem hj).1 (hmem hj).2))
      (fun j hj => reinsertFailedRow_eq hclock (hnulls j (hmem hj).1 (hmem hj).2)) ?_ (by rw [List.flatMap_nil, List.append_nil, hkept]) hloop
    intro pre j post hsplit hcan hrefused
    have hsplit : db.jobs.filter select = pre ++ j :: post := hsplit
    rw [hsplit] at horder
    obtain ⟨-, hpost, -⟩ := List.pairwise_append.mp horder
    have hlater : ∀ k ∈ post, clashes jobIndexes (retryRow i.toFailInput j) k = false := fun k hk =>
      (List.pairwise_cons.mp hpost).1 k hk hcan
    rw [acceptedRetries, hsplit] at hrefused ⊢
    exact refused_before (hsplit ▸ filter_perm_kept db select) hlater hrefused
  obtain ⟨hjobs, hqueues, hdeps⟩ := hleft
  refine ⟨?_, (failJobsBody_ok hbody).2.2.1.trans hqueues.symm, (failJobsBody_ok hbody).2.2.2.1.trans hdeps.symm⟩
  rw [hjobs]
  exact hrows

end Agreement

section Calls

variable {i : FailInput} {output : Job → Option Json} {select : Job → Bool} {db : Database}

theorem retryRow_congr {j : Job} (h : i.output j = output j) : retryRow i j = retryRow { i with output } j := by
  simp only [retryRow, h]
  rfl

theorem retriedJobs_congr (rows : List Job) {deleted : List Job} (h : ∀ j ∈ deleted, i.output j = output j) :
    retriedJobs i rows deleted = retriedJobs { i with output } rows deleted := by
  induction deleted generalizing rows with
  | nil => rfl
  | cons j rest ih =>
    have hrow := retryRow_congr (h j List.mem_cons_self)
    have hrest : ∀ rows, retriedJobs i rows rest = retriedJobs { i with output } rows rest :=
      fun rows => ih rows fun k hk => h k (List.mem_cons_of_mem _ hk)
    simp only [retriedJobs, hrow, hrest]

/-- The statement reads the outputs of the rows it selects only. -/
theorem failJobsBody_congr (h : ∀ j ∈ db.jobs, select j = true → i.output j = output j) :
    failJobsBody i select db = failJobsBody { i with output } select db := by
  have hmem : ∀ j ∈ db.jobs.filter select, i.output j = output j := fun j hj =>
    h j (List.mem_filter.mp hj).1 (List.mem_filter.mp hj).2
  have hretried := retriedJobs_congr db.jobs hmem
  have hfailed : ∀ j ∈ failedJobs (db.jobs.filter select) (retriedJobs { i with output } db.jobs
      (db.jobs.filter select)).2, failedRow i j = failedRow { i with output } j := fun j hj => by
    simp only [failedRow, hmem j (List.mem_filter.mp hj).1]
  have hretry : ∀ j ∈ (retriedJobs { i with output } db.jobs (db.jobs.filter select)).2,
      retryRow i j = retryRow { i with output } j :=
    fun j hj => retryRow_congr (hmem j ((retriedJobs_sublist _ _ _).mem hj))
  have hresults : failResults i (retriedJobs { i with output } db.jobs (db.jobs.filter select)).2
      (failedJobs (db.jobs.filter select) (retriedJobs { i with output } db.jobs (db.jobs.filter select)).2) =
        failResults { i with output } (retriedJobs { i with output } db.jobs (db.jobs.filter select)).2
          (failedJobs (db.jobs.filter select)
            (retriedJobs { i with output } db.jobs (db.jobs.filter select)).2) := by
    rw [failResults, failResults, List.map_congr_left fun j hj => congrArg (Prod.mk j) (hretry j hj),
      List.map_congr_left fun j hj => congrArg (Prod.mk j) (hfailed j hj)]
  simp only [failJobsBody, hretried, hresults, List.map_congr_left hfailed]
  rfl

variable {c : FailCall} {i : ReinsertInput} {db₁ db₂ : Database} {rows : List Job} {n : ℕ}

/-- The rows of a table that are in a sublist of it. -/
theorem filter_mem_of_sublist {picked rows : List Job} (h : picked.Sublist rows) (hnodup : rows.Nodup) :
    rows.filter (fun j => decide (j ∈ picked)) = picked := by
  induction h with
  | slnil => rfl
  | cons a hsub ih =>
    obtain ⟨hnew, hrest⟩ := List.nodup_cons.mp hnodup
    rw [List.filter_cons_of_neg (by simpa using fun hmem => hnew (hsub.mem hmem)), ih hrest]
  | cons_cons a hsub ih =>
    obtain ⟨hnew, hrest⟩ := List.nodup_cons.mp hnodup
    rw [List.filter_cons_of_pos (by simp)]
    refine congrArg (List.cons a) ((List.filter_congr fun j hj => ?_).trans (ih hrest))
    have hne : j ≠ a := fun heq => hnew (heq ▸ hj)
    simp [hne]

/-- Rows that match a list of ids are all the rows there are with those ids. -/
theorem filter_ids_eq {p : Job → Bool} {picked : List Job} (hpicked : picked.Sublist (db.jobs.filter p))
    (hids : ∀ j ∈ db.jobs, ∀ k ∈ db.jobs, p j = true → p k = true → j.id = k.id → j = k) (hnodup : db.jobs.Nodup) :
    db.jobs.filter (fun j => p j && decide (j.id ∈ picked.map Job.id)) = picked := by
  have hmem : db.jobs.filter (fun j => p j && decide (j.id ∈ picked.map Job.id)) =
      (db.jobs.filter p).filter fun j => decide (j ∈ picked) := by
    rw [List.filter_filter]
    refine List.filter_congr fun j hj => ?_
    cases hp : p j with
    | false => simp
    | true =>
      have hiff : j.id ∈ picked.map Job.id ↔ j ∈ picked := by
        refine ⟨fun hid => ?_, List.mem_map_of_mem⟩
        obtain ⟨k, hk, hkj⟩ := List.mem_map.mp hid
        obtain ⟨hkdb, hpk⟩ := List.mem_filter.mp (hpicked.mem hk)
        exact hids k hkdb j hj hpk hp hkj ▸ hk
      simp [hiff]
  rw [hmem]
  exact filter_mem_of_sublist hpicked (hnodup.filter _)

/-- Both paths select the same rows, where no two of those matched share an id. -/
theorem reinsert_selected (hdb : db.Allowed) (hids : ∀ j ∈ db.jobs, ∀ k ∈ db.jobs, c.matched i.now db j = true →
    c.matched i.now db k = true → j.id = k.id → j = k) :
    c.reinsert.selected i.now db = db.jobs.filter (c.selects i.now db) := by
  cases c with
  | fail name ids attempts => rfl
  | failWithOutputs name items terminal =>
    refine List.filter_congr fun j hj => ?_
    have hfenced : attemptFence (items.map Prod.fst) j = true → j.id ∈ items.map (fun item => item.1.id) ∧
        j.state < .completed := fun h => by
      simp only [attemptFence, Bool.and_eq_true, decide_eq_true_eq] at h
      obtain ⟨item, hitem, heq⟩ := List.mem_map.mp h.2
      exact ⟨List.mem_map.mpr ⟨item, hitem, congrArg JobAttempt.id heq⟩, by simp [h.1]⟩
    simp only [FailCall.selects, failItemSelects, failSelects, named, fence]
    cases hfence : attemptFence (items.map Prod.fst) j with
    | false => simp
    | true => simp only [(hfenced hfence).1, (hfenced hfence).2, decide_true, Bool.and_true]
  | expire kind table queues limit =>
    exact (filter_ids_eq (List.take_sublist _ _) hids hdb.nodup).symm

/-- The call's input on the two paths is the same but for the outputs. -/
theorem reinsert_input (c : FailCall) (i : ReinsertInput) : (c.reinsert.input i).toFailInput =
    { c.input i.toFailInput with output := (c.reinsert.input i).output } ∧ (c.reinsert.input i).clock = i.clock := by
  cases c <;> exact ⟨rfl, rfl⟩

end Calls

section Compared

/-- A job of a queue that retries after a minute. -/
def retryingJob : Job where
  id := 1
  name := "q"
  state := .active
  retryDelay := 60
  startAfter := 0
  createdOn := 0
  startedOn := some 0
  keepUntil := 0

/-- Its queue. -/
def retryingQueue : Queue where
  name := "q"
  policy := .standard
  retryLimit := 2
  retryDelay := 60
  retryBackoff := false
  retryDelayMax := none
  expireSeconds := 900
  retentionSeconds := 1209600
  deletionSeconds := 604800
  deadLetter := none
  heartbeatSeconds := none

/-- The tables with that job. -/
def retryingDatabase : Database where
  jobs := [retryingJob]
  queues := [retryingQueue]

/-- Both clocks read five seconds. -/
def atFive : ReinsertInput where
  now := 5000000
  clock := 5000
  random := fun _ => 0
  newId := fun _ => 9
  output := fun _ => none

end Compared

end PgBoss
