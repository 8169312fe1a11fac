import PgBoss.Lifecycle.Queues

/-!
# Strict order within a key

On a `key_strict_fifo` queue whose rows are all stamped, `job_i8` leaves each key one holder.
The head of a key is its retry if that can start, else its first created job by `created_on`
and id, and a fetch claims a head only when no other job holds the key; so a claim takes the
retry or the first job, and a key without a running or failed job is never stuck. A dead
letter copy in the queue breaks this: it is no head, and its key waits for ever.
-/

namespace PgBoss

open Relational Relation

/-- No failure statement makes a dead letter copy in the queue. -/
def CopiesElsewhere (name : String) (w : World) (s : Statement) : Prop :=
  s.isFailure = true → ∀ r ∈ s.adds w.db, r.name ≠ name

instance (name : String) (w : World) (s : Statement) : Decidable (CopiesElsewhere name w s) :=
  inferInstanceAs (Decidable (_ → _))

/-- The states in which a job holds its key. -/
def Job.holdsKey (j : Job) : Prop := j.state = .active ∨ j.state = .retry ∨ j.state = .failed

/-- A waiting, unblocked job the fetch finds due. -/
def Job.ready (now : Timestamp) (o : FetchOptions) (j : Job) : Prop :=
  j.state < .active ∧ j.blocked = false ∧ startable now o j = true

/-- The claim of `j` respects its key: any retry of the key is `j`, and without one `j` is the first
ready created job by `created_on` and id. -/
structure RespectsKey (now : Timestamp) (o : FetchOptions) (db : Database) (j : Job) : Prop where
  ready : j.ready now o
  retry : ∀ b ∈ db.jobs, b.name = j.name → b.singletonKey = j.singletonKey → b.state = .retry → b = j
  first : j.state ≠ .retry → j.state = .created ∧ ∀ b ∈ db.jobs, b.name = j.name →
    b.singletonKey = j.singletonKey → b.state = .created → b.ready now o →
    j.createdOn < b.createdOn ∨ j.createdOn = b.createdOn ∧ j.id ≤ b.id

/-- A fetch on the queue under its policy. -/
def FetchOptions.onFifo (o : FetchOptions) (name : String) : Prop := o.name = name ∧ o.policy = .keyStrictFifo

/-- A fetch without filters. -/
def FetchOptions.unfiltered (o : FetchOptions) : Prop :=
  o.ignoreGroups = [] ∧ o.minPriority = none ∧ o.maxPriority = none ∧ o.groupConcurrency = none

/-- The number of keys of a queue. -/
def keyCount (name : String) (db : Database) : ℕ :=
  ((db.jobs.filter fun j => decide (j.name = name)).map Job.singletonKey).dedup.length

/-- The key has a ready retry, or no retry and a ready created job. -/
def KeyReady (now : Timestamp) (o : FetchOptions) (db : Database) (name key : String) : Prop :=
  (∃ j ∈ db.jobs, j.name = name ∧ j.singletonKey = some key ∧ j.state = .retry ∧ j.ready now o) ∨
    (∀ j ∈ db.jobs, j.name = name → j.singletonKey = some key → j.state ≠ .retry) ∧
      ∃ j ∈ db.jobs, j.name = name ∧ j.singletonKey = some key ∧ j.state = .created ∧ j.ready now o

/-- Every row of the queue carries its policy. -/
def FifoStamped (name : String) (db : Database) : Prop :=
  ∀ j ∈ db.jobs, j.name = name → j.policy = some .keyStrictFifo

variable {name key : String} {w : World} {db db' : Database} {now : Timestamp} {rank : Job → ℕ}
  {locked : List JobKey} {o : FetchOptions} {a b j : Job} {claimed : List Job}

section Heads

/-- The order of a key as a linear one. -/
def headOrder (j : Job) : ℤ ×ₗ Timestamp ×ₗ Uuid := toLex (-(j.state.rank : ℤ), toLex (j.createdOn, j.id))

theorem headBefore_iff : headBefore a b ↔ headOrder a ≤ headOrder b := by
  have hlt : b.state.rank < a.state.rank ↔ -(a.state.rank : ℤ) < -(b.state.rank : ℤ) := by omega
  have heq : a.state.rank = b.state.rank ↔ -(a.state.rank : ℤ) = -(b.state.rank : ℤ) := by omega
  rw [headBefore, hlt, heq]
  simp only [headOrder, Prod.Lex.toLex_le_toLex]

/-- The first of some jobs in the order of a key. -/
theorem exists_first {jobs : List Job} (hne : jobs ≠ []) : ∃ m ∈ jobs, ∀ b ∈ jobs, headBefore m b := by
  cases hmin : jobs.argmin headOrder with
  | none => exact absurd (List.argmin_eq_none.mp hmin) hne
  | some m => exact ⟨m, List.argmin_mem hmin, fun b hb => headBefore_iff.mpr (List.le_of_mem_argmin hb hmin)⟩

theorem headCandidate_iff (hstamp : FifoStamped name db) (ho : o.onFifo name) (hj : j ∈ db.jobs) :
    headCandidate now o j = true ↔ j.name = name ∧ j.ready now o := by
  simp only [headCandidate, Job.ready, ho.1, Bool.and_eq_true, decide_eq_true_eq, Bool.not_eq_true']
  constructor
  · rintro ⟨⟨⟨⟨hname, hwait⟩, hblocked⟩, -⟩, hstart⟩
    exact ⟨hname, hwait, hblocked, hstart⟩
  · rintro ⟨hname, hwait, hblocked, hstart⟩
    exact ⟨⟨⟨⟨hname, hwait⟩, hblocked⟩, hstamp j hj hname⟩, hstart⟩

/-- The key holder is unique. -/
theorem holder_unique (hdb : db.Allowed) (hstamp : FifoStamped name db) (ha : a ∈ db.jobs) (hb : b ∈ db.jobs)
    (haname : a.name = name) (hbname : b.name = name) (hkey : a.singletonKey = b.singletonKey)
    (hah : a.holdsKey) (hbh : b.holdsKey) : a = b := by
  have hap := hstamp a ha haname
  refine hdb.consistent.eq_of_clashes ha hb (jobs_clash_iff.mpr ?_)
  exact .inr (.inr (.inr (.inr (.inr (.inr (.inl (jobI8_clash.mpr ⟨⟨hah, hap⟩, ⟨hbh, hstamp b hb hbname⟩,
    haname.trans hbname.symm, hdb.singletonKey_isSome ha hap, hkey⟩)))))))

theorem not_strictFifoBlocked (hdb : db.Allowed) (hstamp : FifoStamped name db) (hj : j ∈ db.jobs)
    (hname : j.name = name) : strictFifoBlocked db j = false ↔
      ∀ b ∈ db.jobs, b.name = name → b.singletonKey = j.singletonKey → b.holdsKey → b = j := by
  rw [strictFifoBlocked, List.any_eq_false]
  constructor
  · intro hnone b hb hbname hkey hholds
    by_contra hne
    have hid : b.id ≠ j.id := fun hid => hne (hdb.eq_of_jobKey hb hj (Prod.ext (hbname.trans hname.symm) hid))
    have hsome := hdb.singletonKey_isSome hb (hstamp b hb hbname)
    exact hnone b hb (decide_eq_true ⟨hbname.trans hname.symm, hsome, hkey, hholds, hstamp b hb hbname, hid⟩)
  · intro hall b hb htrue
    obtain ⟨hbname, -, hkey, hholds, -, hid⟩ := of_decide_eq_true htrue
    exact hid (congrArg Job.id (hall b hb (hbname.trans hname) hkey hholds))

end Heads

section Claims

/-- What a fetch of the queue claims respects the order of its key. -/
theorem claimed_respectsKey (hdb : db.Allowed) (hstamp : FifoStamped name db) (ho : o.onFifo name)
    (hrun : fetchNextJob now rank locked o db = .ok (db', claimed)) {c : Job} (hc : c ∈ claimed) :
    ∃ j ∈ db.jobs, c = claimSet now j ∧ RespectsKey now o db j := by
  obtain ⟨-, j, hj, heligible, -, rfl⟩ := fetchNextJob_claimed hdb hrun hc
  obtain ⟨hname, hwait, hblocked, hstart, hfifo, -⟩ := fetchEligible_iff.mp heligible
  obtain ⟨hid, hfree⟩ := hfifo ho.2
  have hname' : j.name = name := hname.trans ho.1
  have hhead := strictFifoHeads_of_id hdb hj hname hid
  have honly := (not_strictFifoBlocked hdb hstamp hj hname').mp hfree
  refine ⟨j, hj, rfl, ⟨hwait, hblocked, hstart⟩, fun b hb hbname hkey hretry =>
    honly b hb (hbname.trans hname') hkey (.inr (.inl hretry)), fun hnotretry => ?_⟩
  have hcreated : j.state = .created := ((JobState.lt_active _).mp hwait).resolve_right hnotretry
  refine ⟨hcreated, fun b hb hbname hkey hbcreated hready => ?_⟩
  have hcandidate := (headCandidate_iff hstamp ho hb).mpr ⟨hbname.trans hname', hready⟩
  rcases strictFifoHeads_before hhead hb hcandidate hkey with hlt | ⟨-, hle⟩
  · rw [hcreated, hbcreated] at hlt
    exact absurd hlt (lt_irrefl _)
  · exact hle

end Claims

section Progress

/-- A key that is ready and that no job runs or failed under has a head a fetch may claim. -/
theorem exists_eligible_head (hdb : db.Allowed) (hstamp : FifoStamped name db) (ho : o.onFifo name)
    (hplain : o.unfiltered)
    (hidle : ∀ j ∈ db.jobs, j.name = name → j.singletonKey = some key → j.state ≠ .active ∧ j.state ≠ .failed)
    (hready : KeyReady now o db name key) :
    ∃ j ∈ db.jobs, j.name = name ∧ j.singletonKey = some key ∧ fetchEligible now o db j = true := by
  have hcandidates : db.jobs.filter (fun j => headCandidate now o j && decide (j.singletonKey = some key)) ≠ [] := by
    obtain ⟨j, hj, hname, hkey, -, hready⟩ | ⟨-, j, hj, hname, hkey, -, hready⟩ := hready <;>
    exact List.ne_nil_of_mem (List.mem_filter.mpr ⟨hj, by simp [(headCandidate_iff hstamp ho hj).mpr ⟨hname, hready⟩, hkey]⟩)
  obtain ⟨m, hm, hfirst⟩ := exists_first hcandidates
  obtain ⟨hm, hmc⟩ := List.mem_filter.mp hm
  obtain ⟨hmc, hmkey⟩ := (Bool.and_eq_true _ _).mp hmc
  have hmkey : m.singletonKey = some key := of_decide_eq_true hmkey
  obtain ⟨hmname, hwait, hblocked, hstart⟩ := (headCandidate_iff hstamp ho hm).mp hmc
  have hhead : m ∈ strictFifoHeads now o db := by
    refine List.mem_filter.mpr ⟨List.mem_filter.mpr ⟨hm, hmc⟩, List.all_eq_true.mpr fun h hh => ?_⟩
    obtain ⟨hh, hhc⟩ := List.mem_filter.mp hh
    by_cases hkey : h.singletonKey = m.singletonKey
    · simp [hfirst h (List.mem_filter.mpr ⟨hh, by simp [hhc, hkey, hmkey]⟩)]
    · simp [hkey]
  refine ⟨m, hm, hmname, hmkey, fetchEligible_iff.mpr ⟨hmname.trans ho.1.symm, hwait, hblocked, hstart, fun _ =>
    ⟨List.mem_map_of_mem hhead, ?_⟩, fun hsingle => ?_, ?_, ?_⟩⟩
  · refine (not_strictFifoBlocked hdb hstamp hm hmname).mpr fun b hb hbname hkey hholds => ?_
    -- a holder of the key can only be its retry, and then the retry is the head
    have hbretry : b.state = .retry := by
      obtain ⟨hactive, hfailed⟩ := hidle b hb hbname (hkey.trans hmkey)
      rcases hholds with h | h | h
      · exact absurd h hactive
      · exact h
      · exact absurd h hfailed
    rcases hready with ⟨r, hr, hrname, hrkey, hrretry, hrready⟩ | ⟨hnone, -⟩
    · have hbr : b = r := holder_unique hdb hstamp hb hr hbname hrname (hkey.trans (hmkey.trans hrkey.symm))
        (.inr (.inl hbretry)) (.inr (.inl hrretry))
      have hmretry : m.state = .retry := by
        have hbefore := hfirst r (List.mem_filter.mpr ⟨hr, by
          simp [(headCandidate_iff hstamp ho hr).mpr ⟨hrname, hrready⟩, hrkey]⟩)
        refine ((JobState.lt_active _).mp hwait).resolve_left fun hcreated => ?_
        rw [headBefore, hcreated, hrretry] at hbefore
        rcases hbefore with h | ⟨h, -⟩ <;> simp [JobState.rank] at h
      exact holder_unique hdb hstamp hb hm hbname hmname hkey (.inr (.inl hbretry)) (.inr (.inl hmretry))
    · exact absurd hbretry (hnone b hb hbname (hkey.trans hmkey))
  · simp [FetchOptions.singletonPolicy, ho.2] at hsingle
  · obtain ⟨hgroups, hmin, hmax, -⟩ := hplain
    cases hgroup : m.groupId <;> simp [fetchFilters, hgroups, hmin, hmax, hgroup]
  · simp [groupConcurrencyFilter, hplain.2.2.2]

/-- There are no more eligible jobs than keys. -/
theorem eligible_length (hdb : db.Allowed) (ho : o.onFifo name) :
    (db.jobs.filter (fetchEligible now o db)).length ≤ keyCount name db := by
  have hmem : ∀ {j : Job}, j ∈ db.jobs.filter (fetchEligible now o db) →
      j ∈ db.jobs ∧ j.name = o.name ∧ j ∈ strictFifoHeads now o db := by
    intro j hj
    obtain ⟨hj, heligible⟩ := List.mem_filter.mp hj
    obtain ⟨hname, -, -, -, hfifo, -⟩ := fetchEligible_iff.mp heligible
    exact ⟨hj, hname, strictFifoHeads_of_id hdb hj hname (hfifo ho.2).1⟩
  have hnodup : ((db.jobs.filter (fetchEligible now o db)).map Job.singletonKey).Nodup := by
    refine List.Nodup.map_on (fun x hx y hy hkey => ?_) ((hdb.consistent.nodup clashes_self).filter _)
    exact strictFifoHeads_unique hdb (hmem hx).2.2 (hmem hy).2.2 hkey
  rw [← List.length_map Job.singletonKey, keyCount]
  refine (List.subperm_of_subset hnodup fun k hk => ?_).length_le
  obtain ⟨j, hj, rfl⟩ := List.mem_map.mp hk
  obtain ⟨hj, hname, -⟩ := hmem hj
  exact List.mem_dedup.mpr (List.mem_map_of_mem (List.mem_filter.mpr ⟨hj, decide_eq_true (hname.trans ho.1)⟩))

/-- An uncontended fetch of enough jobs claims every eligible one. -/
theorem fetch_claims_eligible (rank : Job → ℕ) (hdb : db.Allowed) (hstamp : FifoStamped name db) (ho : o.onFifo name)
    (hplain : o.unfiltered) (hlimit : keyCount name db ≤ o.limit) :
    ∃ db' claimed, fetchNextJob now rank [] o db = .ok (db', claimed) ∧
      ∀ j ∈ db.jobs, fetchEligible now o db j = true → claimSet now j ∈ claimed := by
  have hsingle : o.singletonPolicy = false := by simp [FetchOptions.singletonPolicy, ho.2]
  have hfor : db.StampedFor o.name o.policy := fun j hj hname => .inl (by
    rw [ho.2]; exact hstamp j hj (hname.trans ho.1))
  have hmixed : ¬ MixedKeys now rank [] o db := fun h => by simpa [hsingle] using h.1
  obtain ⟨db', ids, hupdate⟩ := Database.updateWhere_total (claimSet now)
    (fun a ha hs b hb hne => claimSet_clash_old hdb hfor ha ((fetchSelects_iff hdb ha).mp hs) hb hne)
    (fun a ha hs b hb hs' hne => claimSet_clash_new hdb hfor hmixed ((fetchSelects_iff hdb ha).mp hs)
      ((fetchSelects_iff hdb hb).mp hs') hne) (hdb.consistent.nodup clashes_self)
  refine ⟨db', _, by rw [fetchNextJob, hupdate], fun j hj heligible => ?_⟩
  refine List.mem_map_of_mem (List.mem_filter.mpr ⟨hj, (fetchSelects_iff hdb hj).mpr ?_⟩)
  have hnext : j ∈ fetchNext now [] o db := by
    rw [fetchNext, List.take_of_length_le]
    · simp [List.mem_filter, (List.perm_insertionSort fetchBefore _).mem_iff, hj, heligible]
    · refine (List.length_filter_le _ _).trans ?_
      rw [(List.perm_insertionSort fetchBefore _).length_eq]
      exact (eligible_length hdb ho).trans hlimit
  rw [fetchChosen, hplain.2.2.2]
  simpa [FetchOptions.singletonFetch, hsingle] using hnext

end Progress

/-- In every run without a dead letter copy in the queue: a key has one active, retrying or failed
job; every claim of a key takes its retry, or else its first ready created job; and where no job
of a key is active or failed and one is ready, an uncontended fetch of enough jobs claims one. -/
theorem strict_fifo (hrun : World.Run (CopiesElsewhere name) World.empty w)
    (hcreated : w.createdWith name = some .keyStrictFifo) :
    (∀ a ∈ w.db.jobs, ∀ b ∈ w.db.jobs, a.name = name → b.name = name → a.singletonKey = b.singletonKey →
      a.holdsKey → b.holdsKey → a = b) ∧
    (∀ now rank locked o db' claimed, o.onFifo name → fetchNextJob now rank locked o w.db = .ok (db', claimed) →
      ∀ c ∈ claimed, ∃ j ∈ w.db.jobs, c = claimSet now j ∧ RespectsKey now o w.db j) ∧
    ∀ now rank o key, o.onFifo name → o.unfiltered → keyCount name w.db ≤ o.limit →
      (∀ j ∈ w.db.jobs, j.name = name → j.singletonKey = some key → j.state ≠ .active ∧ j.state ≠ .failed) →
      KeyReady now o w.db name key →
      ∃ db' claimed, fetchNextJob now rank [] o w.db = .ok (db', claimed) ∧
        ∃ c ∈ claimed, c.name = name ∧ c.singletonKey = some key := by
  have hruled : w.Ruled fun n => n ≠ name := ruled_run hrun fun _ _ => id
  have hstamp : FifoStamped name w.db := by
    intro j hj hname
    obtain ⟨q, hq, hpolicy | ⟨hcopy, -⟩⟩ := hruled.stamped j hj
    · rw [hpolicy, ← hcreated, ← hname, hruled.policies _ q hq]
    · exact absurd hname hcopy
  refine ⟨fun a ha b hb => holder_unique hruled.allowed hstamp ha hb, ?_, ?_⟩
  · intro now rank locked o db' claimed ho hfetch c hc
    exact claimed_respectsKey hruled.allowed hstamp ho hfetch hc
  · intro now rank o key ho hplain hlimit hidle hready
    obtain ⟨j, hj, hname, hkey, heligible⟩ :=
      exists_eligible_head hruled.allowed hstamp ho hplain hidle hready
    obtain ⟨db', claimed, hfetch, hall⟩ := fetch_claims_eligible rank hruled.allowed hstamp ho hplain hlimit
    exact ⟨db', claimed, hfetch, claimSet now j, hall j hj heligible, hname, hkey⟩

section SelfDeadLetter

/-- A strict FIFO queue. -/
def fifoQueue : Queue := { queueDefaults with name := "fifo", policy := .keyStrictFifo }

/-- A send of a job under the key `k`, which is not retried. -/
def sendKeyed (id : Uuid) (deadLetter : Option String) : Statement :=
  .insertJobs 1 "fifo" false [({ id := some id, singletonKey := some "k", retryLimit := some 0, deadLetter }, 0)]

/-- A fetch of up to ten jobs of the queue. -/
def fifoFetch : FetchOptions := { name := "fifo", policy := .keyStrictFifo, limit := 10 }

/-- A failure of the job. -/
def failKeyed (id : Uuid) : Statement := .failJobs ⟨3, fun _ => 0, fun _ => 9, fun _ => none, false⟩ (.fail "fifo" [id] none)

/-- A job names its own queue as its dead letter queue, fails for good, and is deleted. -/
def selfDeadLettered : List Statement :=
  [.createQueue fifoQueue, sendKeyed 1 (some "fifo"), .fetchNextJob 2 (fun _ => 0) [] fifoFetch, failKeyed 1,
    .deleteJobsById "fifo" [1] none]

/-- The key has one job, a created one that is due and unblocked, and no fetch ever takes it. -/
theorem selfDeadLettered_deadlocks :
    World.Run (fun _ _ => True) World.empty (World.empty.play selfDeadLettered) ∧
    (World.empty.play selfDeadLettered).createdWith "fifo" = some .keyStrictFifo ∧
    (World.empty.play selfDeadLettered).db.jobs.map Job.state = [.created] ∧
    KeyReady 4 fifoFetch (World.empty.play selfDeadLettered).db "fifo" "k" ∧
    keyCount "fifo" (World.empty.play selfDeadLettered).db ≤ fifoFetch.limit ∧
    fetchNextJob 4 (fun _ => 0) [] fifoFetch (World.empty.play selfDeadLettered).db =
      .ok ((World.empty.play selfDeadLettered).db, []) := by
  refine ⟨World.play_run (by decide), by decide, by decide, ?_, by decide, by decide⟩
  unfold KeyReady Job.ready
  decide

/-- Two jobs of one key, the first of which runs and is deleted. -/
def oneDeleted : List Statement :=
  [.createQueue fifoQueue, sendKeyed 1 none, sendKeyed 2 none, .fetchNextJob 2 (fun _ => 0) [] fifoFetch,
    .deleteJobsById "fifo" [1] none]

/-- The theorem there: the next fetch claims the second job. -/
theorem strict_fifo_advances : ∃ db' claimed,
    fetchNextJob 4 (fun _ => 0) [] fifoFetch (World.empty.play oneDeleted).db = .ok (db', claimed) ∧
      ∃ c ∈ claimed, c.name = "fifo" ∧ c.singletonKey = some "k" := by
  have hrun : World.Run (CopiesElsewhere "fifo") World.empty (World.empty.play oneDeleted) :=
    World.play_run (by decide)
  refine (strict_fifo hrun (by decide)).2.2 4 (fun _ => 0) fifoFetch "k" ⟨rfl, rfl⟩ ⟨rfl, rfl, rfl, rfl⟩ (by decide)
    (by decide) ?_
  unfold KeyReady Job.ready
  decide

end SelfDeadLetter

end PgBoss
