import PgBoss.Lifecycle.Queues

/-!
# A job under its queue's rules

What a policy forbids and holds back is stated here without the `policy` column of a job. The
indexes and the claiming statement go by that column, so they enforce the policy on exactly
the rows that are stamped with it: every row, in a run that makes no dead letter copy. A copy
is inserted without a policy and without a maximum retry delay.
-/

namespace PgBoss

open Relational Relation

/-- Two jobs of one queue that its policy does not allow together. -/
def QueuePolicy.excludes (a b : Job) : QueuePolicy → Prop
  | .standard => False
  | .short => a.state = .created ∧ b.state = .created ∧ a.slotKey = b.slotKey
  | .singleton => a.state = .active ∧ b.state = .active ∧ a.slotKey = b.slotKey
  | .stately => a.state ≤ .active ∧ a.state = b.state ∧ a.slotKey = b.slotKey
  | .exclusive => a.state ≤ .active ∧ b.state ≤ .active ∧ a.slotKey = b.slotKey
  | .keyStrictFifo => (a.state = .active ∨ a.state = .retry ∨ a.state = .failed) ∧
      (b.state = .active ∨ b.state = .retry ∨ b.state = .failed) ∧ a.singletonKey = b.singletonKey

/-- Another job goes before one of a strict FIFO key: it holds the key, or could be claimed and is
not behind. -/
def goesBefore (now : Timestamp) (b j : Job) : Prop :=
  b ≠ j ∧ b.name = j.name ∧ b.singletonKey = j.singletonKey ∧
    ((b.state = .active ∨ b.state = .retry ∨ b.state = .failed) ∨
      b.state < .active ∧ b.blocked = false ∧ b.startAfter ≤ now ∧ ¬ headBefore j b)

/-- The policy has the job wait for another. -/
def QueuePolicy.holdsBack (now : Timestamp) (db : Database) (j : Job) : QueuePolicy → Prop
  | .standard => False
  | .short => False
  | .singleton => ∃ p ∈ db.jobs, p.name = j.name ∧ p.state = .active ∧ p.slotKey = j.slotKey
  | .stately => ∃ p ∈ db.jobs, p.name = j.name ∧ p.state = .active ∧ p.slotKey = j.slotKey
  | .exclusive => False
  | .keyStrictFifo => ∃ b ∈ db.jobs, goesBefore now b j

/-- A row carries the retry, retention, expiration and heartbeat configuration of a queue. -/
structure Queue.Configures (q : Queue) (r : Job) : Prop where
  retryLimit : r.retryLimit = q.retryLimit
  retryDelay : r.retryDelay = q.retryDelay
  retryBackoff : r.retryBackoff = q.retryBackoff
  retryDelayMax : r.retryDelayMax = q.retryDelayMax
  retention : r.keepUntil = r.createdOn + seconds q.retentionSeconds
  deletion : r.deletionSeconds = q.deletionSeconds
  expiration : r.expireSeconds = q.expireSeconds
  heartbeat : r.heartbeatSeconds = q.heartbeatSeconds

/-- The statements that put a job into another queue than its own. -/
def Statement.requeues : Statement → Bool
  | .redriveJobs _ _ => true
  | s => s.isFailure

/-- A failure statement makes no dead letter copy. -/
def NoCopies (w : World) (s : Statement) : Prop := s.isFailure = true → s.adds w.db = []

instance (w : World) (s : Statement) : Decidable (NoCopies w s) := inferInstanceAs (Decidable (_ → _))

/-- A fetch of one job without filters. -/
def plainFetch (name : String) (policy : QueuePolicy) : FetchOptions := { name, policy }

variable {w w₀ : World} {s : Statement} {db db' : Database} {now : Timestamp} {a b j : Job} {policy : QueuePolicy}

section Indexes

/-- The unique index of a policy covers the rows stamped with it. -/
theorem excludes_eq (hdb : db.Allowed) (ha : a ∈ db.jobs) (hb : b ∈ db.jobs) (hname : a.name = b.name)
    (hap : a.policy = some policy) (hbp : b.policy = some policy) (hno : policy.excludes a b) : a = b := by
  refine hdb.consistent.eq_of_clashes ha hb (jobs_clash_iff.mpr ?_)
  cases policy with
  | standard => exact hno.elim
  | short => exact .inr (.inl (jobI1_clash.mpr ⟨⟨hno.1, hap⟩, ⟨hno.2.1, hbp⟩, hname, hno.2.2⟩))
  | singleton => exact .inr (.inr (.inl (jobI2_clash.mpr ⟨⟨hno.1, hap⟩, ⟨hno.2.1, hbp⟩, hname, hno.2.2⟩)))
  | stately =>
    obtain ⟨hstate, hsame, hkey⟩ := hno
    exact .inr (.inr (.inr (.inl (jobI3_clash.mpr ⟨⟨hstate, hap⟩, ⟨hsame ▸ hstate, hbp⟩, hname, hsame, hkey⟩))))
  | exclusive =>
    obtain ⟨hstate, hstate', hkey⟩ := hno
    exact .inr (.inr (.inr (.inr (.inr (.inl (jobI6_clash.mpr ⟨⟨hstate, hap⟩, ⟨hstate', hbp⟩, hname, hkey⟩))))))
  | keyStrictFifo =>
    obtain ⟨hstate, hstate', hkey⟩ := hno
    exact .inr (.inr (.inr (.inr (.inr (.inr (.inl (jobI8_clash.mpr
      ⟨⟨hstate, hap⟩, ⟨hstate', hbp⟩, hname, hdb.singletonKey_isSome ha hap, hkey⟩)))))))

end Indexes

section Claimable

theorem headBefore_refl (j : Job) : headBefore j j := .inr ⟨rfl, .inr ⟨rfl, le_refl _⟩⟩

/-- A stamped job that is due, unblocked and not held back passes the tests of a fetch. -/
theorem fetchEligible_of_free (hj : j ∈ db.jobs) (hpolicy : j.policy = some policy) (hwait : j.state < .active)
    (hblocked : j.blocked = false) (hdue : j.startAfter ≤ now) (hfree : ¬ policy.holdsBack now db j) :
    fetchEligible now (plainFetch j.name policy) db j = true := by
  have hstart : startable now (plainFetch j.name policy) j = true := by simp [startable, hdue]
  refine fetchEligible_iff.mpr ⟨rfl, hwait, hblocked, hstart, ?_, ?_, ?_, rfl⟩
  · rintro (rfl : policy = .keyStrictFifo)
    have hnone : ∀ b ∈ db.jobs, ¬ goesBefore now b j := fun b hb h => hfree ⟨b, hb, h⟩
    constructor
    · refine List.mem_map_of_mem (List.mem_filter.mpr ⟨List.mem_filter.mpr ⟨hj, ?_⟩, List.all_eq_true.mpr ?_⟩)
      · simp [headCandidate, plainFetch, hwait, hblocked, hpolicy, startable, hdue]
      · intro h hh
        obtain ⟨hh, hcandidate⟩ := List.mem_filter.mp hh
        simp only [headCandidate, startable, plainFetch, Bool.and_eq_true, decide_eq_true_eq, Bool.not_eq_true',
          Bool.false_or] at hcandidate
        obtain ⟨⟨⟨⟨hname, hwait'⟩, hblocked'⟩, -⟩, hdue'⟩ := hcandidate
        simp only [Bool.or_eq_true, Bool.not_eq_true', decide_eq_false_iff_not, decide_eq_true_eq]
        by_contra hnot
        obtain ⟨hkey, hbefore⟩ := not_or.mp hnot
        refine hnone h hh ⟨fun heq => hbefore (heq ▸ headBefore_refl j), of_decide_eq_true hname, not_not.mp hkey, .inr ⟨hwait',
          hblocked', hdue', hbefore⟩⟩
    · refine Bool.eq_false_iff.mpr fun htrue => ?_
      obtain ⟨b, hb, hheld⟩ := List.any_eq_true.mp htrue
      obtain ⟨hname, -, hkey, hstate, -, hid⟩ := of_decide_eq_true hheld
      exact hnone b hb ⟨fun heq => hid (heq ▸ rfl), hname, hkey, .inl hstate⟩
  · intro hsingle
    refine Bool.eq_false_iff.mpr fun htrue => ?_
    obtain ⟨p, hp, hactive⟩ := List.any_eq_true.mp htrue
    obtain ⟨hname, hstate, -, hkey⟩ := of_decide_eq_true hactive
    have hheld : ∃ p ∈ db.jobs, p.name = j.name ∧ p.state = .active ∧ p.slotKey = j.slotKey :=
      ⟨p, hp, hname, hstate, hkey⟩
    rcases (Bool.or_eq_true _ _).mp hsingle with hpol | hpol
    · obtain rfl : policy = .singleton := of_decide_eq_true hpol
      exact hfree hheld
    · obtain rfl : policy = .stately := of_decide_eq_true hpol
      exact hfree hheld
  · cases hgroup : j.groupId <;> simp [fetchFilters, plainFetch, hgroup]

/-- The keys of the other jobs. -/
def othersLocked (db : Database) (j : Job) : List JobKey := (db.jobs.map Job.jobKey).filter fun k => decide (k ≠ j.jobKey)

/-- A fetch that finds every other job locked takes an eligible one. -/
theorem fetchChosen_alone (rank : Job → ℕ) (hdb : db.Allowed) (hj : j ∈ db.jobs)
    (heligible : fetchEligible now (plainFetch j.name policy) db j = true) :
    fetchChosen now rank (othersLocked db j) (plainFetch j.name policy) db = [j] := by
  have hmem : ∀ k, k ∈ ((db.jobs.filter (fetchEligible now (plainFetch j.name policy) db)).insertionSort
      fetchBefore).filter (fun k => decide (k.jobKey ∉ othersLocked db j)) ↔ k = j := by
    intro k
    rw [List.mem_filter, (List.perm_insertionSort _ _).mem_iff, List.mem_filter, decide_eq_true_eq]
    constructor
    · rintro ⟨⟨hk, -⟩, hfree⟩
      refine hdb.eq_of_jobKey hk hj ?_
      by_contra hne
      exact hfree (List.mem_filter.mpr ⟨List.mem_map_of_mem hk, decide_eq_true hne⟩)
    · rintro rfl
      exact ⟨⟨hj, heligible⟩, fun hlocked => of_decide_eq_true (List.mem_filter.mp hlocked).2 rfl⟩
  have hnodup : (((db.jobs.filter (fetchEligible now (plainFetch j.name policy) db)).insertionSort
      fetchBefore).filter (fun k => decide (k.jobKey ∉ othersLocked db j))).Nodup :=
    ((List.perm_insertionSort _ _).nodup_iff.mpr ((hdb.consistent.nodup clashes_self).filter _)).filter _
  have hnext : fetchNext now (othersLocked db j) (plainFetch j.name policy) db = [j] := by
    rw [fetchNext, List.perm_singleton.mp ((List.perm_ext_iff_of_nodup hnodup (List.nodup_singleton j)).mpr
      fun k => (hmem k).trans List.mem_singleton.symm)]
    rfl
  rw [fetchChosen, hnext]
  rfl

/-- A fetch can claim a stamped job that is due, unblocked and not held back. -/
theorem fetch_can_claim (rank : Job → ℕ) (hdb : db.Allowed) (hstamp : db.StampedFor j.name policy) (hj : j ∈ db.jobs)
    (heligible : fetchEligible now (plainFetch j.name policy) db j = true) :
    ∃ db', fetchNextJob now rank (othersLocked db j) (plainFetch j.name policy) db = .ok (db', [claimSet now j]) := by
  have hchosen := fetchChosen_alone rank hdb hj heligible
  have honly : ∀ k ∈ db.jobs, fetchSelects now rank (othersLocked db j) (plainFetch j.name policy) db k = true ↔ k = j := by
    intro k hk
    rw [fetchSelects_iff hdb hk, hchosen, List.mem_singleton]
  obtain ⟨db', ids, hupdate⟩ := Database.updateWhere_total (claimSet now)
    (fun a ha hs b hb hne => claimSet_clash_old hdb hstamp ha ((fetchSelects_iff hdb ha).mp hs) hb hne)
    (fun a ha hs b hb hs' hne => absurd (((honly b hb).mp hs').trans ((honly a ha).mp hs).symm) hne)
    (hdb.consistent.nodup clashes_self)
  refine ⟨db', ?_⟩
  rw [fetchNextJob, hupdate]
  have hrows : db.jobs.filter (fetchSelects now rank (othersLocked db j) (plainFetch j.name policy) db) = [j] := by
    refine List.perm_singleton.mp ((List.perm_ext_iff_of_nodup ((hdb.consistent.nodup clashes_self).filter _)
      (List.nodup_singleton j)).mpr fun k => ?_)
    rw [List.mem_filter, List.mem_singleton]
    exact ⟨fun hk => (honly k hk.1).mp hk.2, fun hk => by rw [hk]; exact ⟨hj, (honly j hj).mpr rfl⟩⟩
  simp [hrows]

end Claimable

section Requeued

/-- A row under a new key after a redrive or a failure has the configuration of the queue it was put
in, as it is then. -/
theorem requeued_configures (hdb : db.Allowed) (hexec : s.exec db = .ok db') (hs : s.requeues = true)
    (hcopies : s.isFailure = true → s.adds db = []) {r : Job} (hr : r ∈ db'.jobs)
    (hnew : ∀ j ∈ db.jobs, j.jobKey ≠ r.jobKey) : ∃ q, db.queue r.name = some q ∧ q.Configures r := by
  cases (s.exec_effect hdb hexec).rows r hr with
  | moved hj hmove => exact absurd hmove.jobKey.symm (hnew _ hj)
  | claimed hj _ _ hset _ => exact absurd (hset ▸ rfl) (hnew _ hj)
  | restored _ hj _ hset => exact absurd (hset ▸ rfl) (hnew _ hj)
  | added hadd =>
    cases s with
    | redriveJobs o locked =>
      obtain ⟨m, -, hrow⟩ := List.mem_filterMap.mp hadd
      obtain ⟨q, hq, rfl⟩ := Option.map_eq_some_iff.mp hrow
      obtain ⟨name, -, hq⟩ := Option.bind_eq_some_iff.mp hq
      exact ⟨q, queue_self hq, ⟨rfl, rfl, rfl, rfl, rfl, rfl, rfl, rfl⟩⟩
    | failJobs i call => exact absurd hadd (by simp [hcopies rfl])
    | failDistributed i call => exact absurd hadd (by simp [hcopies rfl])
    | _ => simp [Statement.requeues, Statement.isFailure] at hs

/-- The copies a failure statement makes are left in the table, and none carries a policy. -/
theorem copies_unstamped (hdb : db.Allowed) (hexec : s.exec db = .ok db') (hs : s.isFailure = true) {r : Job}
    (hr : r ∈ s.adds db) : r ∈ db'.jobs ∧ r.policy = none := by
  cases s with
  | failJobs i call =>
    obtain ⟨rows, h⟩ := map_fst_ok hexec
    rw [call.run_eq] at h
    obtain ⟨j, q, row, -, -, hq, hrow⟩ := deadLetterCopies_mem hr
    exact ⟨(failJobsBody_mem h).mpr (.inr (.inr (.inr hr))), hrow ▸ rfl⟩
  | failDistributed i call =>
    obtain ⟨count, h⟩ := map_fst_ok hexec
    rw [call.run_eq i hdb] at h
    have hcopy : ∃ j ∈ call.selected i.now db, IsCopy (call.input i) db j r := isCopy_of_mem hr rfl
    obtain ⟨j, -, q, -, hrow⟩ := hcopy
    exact ⟨(reinsertFailedJobs_looped h).copies r hr, hrow ▸ rfl⟩
  | _ => simp [Statement.isFailure] at hs

end Requeued

theorem NoCopies.none_added (hmay : NoCopies w s) (hs : s.isFailure = true) : ∀ r ∈ s.adds w.db, False := by
  simp [hmay hs]

/-- In every run without dead letter copies a row carries the policy its queue was created with; the
policy's index covers every job of the queue; a fetch can claim every due, unblocked job the
policy does not hold back; and a redriven job has its new queue's configuration. A step keeps the
policies so exactly when it makes no copy. -/
theorem jobs_ruled (hrun : World.Run NoCopies World.empty w) :
    (∀ j ∈ w.db.jobs, ∃ policy, w.createdWith j.name = some policy ∧ j.policy = some policy) ∧
    (∀ a ∈ w.db.jobs, ∀ b ∈ w.db.jobs, a.name = b.name → ∀ policy, w.createdWith a.name = some policy →
      policy.excludes a b → a = b) ∧
    (∀ j ∈ w.db.jobs, ∀ policy, w.createdWith j.name = some policy → ∀ now rank, j.state < .active →
      j.blocked = false → j.startAfter ≤ now → ¬ policy.holdsBack now w.db j →
      fetchEligible now (plainFetch j.name policy) w.db j = true ∧
        ∃ db', fetchNextJob now rank (othersLocked w.db j) (plainFetch j.name policy) w.db =
          .ok (db', [claimSet now j])) ∧
    ∀ s db', s.exec w.db = .ok db' →
      ((∀ j ∈ db'.jobs, ∃ policy, (w.next s db').createdWith j.name = some policy ∧ j.policy = some policy) ↔
        NoCopies w s) ∧
      (NoCopies w s → s.requeues = true → ∀ r ∈ db'.jobs, (∀ j ∈ w.db.jobs, j.jobKey ≠ r.jobKey) →
        ∃ q, w.db.queue r.name = some q ∧ q.Configures r) := by
  have hrules : w.Ruled fun _ => False := ruled_run hrun fun _ _ => NoCopies.none_added
  have hstamped : ∀ {w : World}, (w.Ruled fun _ => False) → ∀ j ∈ w.db.jobs,
      ∃ policy, w.createdWith j.name = some policy ∧ j.policy = some policy := by
    intro w h j hj
    obtain ⟨q, hq, hpolicy | ⟨hcopy, -⟩⟩ := h.stamped j hj
    · exact ⟨q.policy, h.policies _ q hq, hpolicy⟩
    · exact hcopy.elim
  have hcarries : ∀ j ∈ w.db.jobs, ∀ policy, w.createdWith j.name = some policy → j.policy = some policy := by
    intro j hj policy hcreated
    obtain ⟨p, hp, hpolicy⟩ := hstamped hrules j hj
    rwa [hpolicy, ← hp]
  refine ⟨hstamped hrules, ?_, ?_, fun s db' hexec => ⟨⟨?_, ?_⟩, ?_⟩⟩
  · intro a ha b hb hname policy hcreated hno
    exact excludes_eq hrules.allowed ha hb hname (hcarries a ha policy hcreated)
      (hcarries b hb policy (hname ▸ hcreated)) hno
  · intro j hj policy hcreated now rank hwait hblocked hdue hfree
    have heligible := fetchEligible_of_free hj (hcarries j hj policy hcreated) hwait hblocked hdue hfree
    refine ⟨heligible, fetch_can_claim rank hrules.allowed (fun k hk hname => .inl ?_) hj heligible⟩
    exact hcarries k hk policy (hname ▸ hcreated)
  · intro hall hs
    refine List.eq_nil_iff_forall_not_mem.mpr fun r hr => ?_
    obtain ⟨hr, hnone⟩ := copies_unstamped hrules.allowed hexec hs hr
    obtain ⟨policy, -, hpolicy⟩ := hall r hr
    simp [hnone] at hpolicy
  · exact fun hmay => hstamped (hrules.step hexec hmay.none_added)
  · exact fun hmay hs r hr hnew => requeued_configures hrules.allowed hexec hs hmay hr hnew

section DeadLettered

/-- A queue with a maximum retry delay. -/
def cappedQueue (name : String) (policy : QueuePolicy) (deadLetter : Option String) : Queue :=
  { queueDefaults with name, policy, deadLetter, retryDelayMax := some 60 }

/-- A send of one job under a key, which is not retried. -/
def sendOnce (name : String) (id : Uuid) : Statement :=
  .insertJobs 1 name false [({ id := some id, singletonKey := some "k", retryLimit := some 0 }, 0)]

/-- A job fails for good, and its dead letter queue is strict FIFO. -/
def deadLettered : List Statement :=
  [.createQueue (cappedQueue "dead" .keyStrictFifo none), .createQueue (cappedQueue "work" .standard (some "dead")),
    sendOnce "work" 1, .fetchNextJob 2 (fun _ => 0) [] (plainFetch "work" .standard),
    .failJobs ⟨3, fun _ => 0, fun _ => 9, fun _ => none, false⟩ (.fail "work" [1] none)]

/-- The copy has neither its queue's policy nor its maximum retry delay, and with nothing else in the
queue no fetch takes it. -/
theorem deadLetterCopy_unruled : World.Run (fun _ _ => True) World.empty (World.empty.play deadLettered) ∧
    (∃ c ∈ (World.empty.play deadLettered).db.jobs,
      (World.empty.play deadLettered).createdWith c.name = some .keyStrictFifo ∧ c.policy = none ∧
      c.retryDelayMax = none ∧
      ((World.empty.play deadLettered).db.queue c.name).bind Queue.retryDelayMax = some 60 ∧
      c.state < .active ∧ c.blocked = false ∧ c.startAfter ≤ 4 ∧
      ¬ QueuePolicy.keyStrictFifo.holdsBack 4 (World.empty.play deadLettered).db c ∧
      fetchNextJob 4 (fun _ => 0) [] { plainFetch "dead" .keyStrictFifo with limit := 10 }
        (World.empty.play deadLettered).db = .ok ((World.empty.play deadLettered).db, [])) ∧
    ¬ ∀ w, World.Run (fun _ _ => True) World.empty w → ∀ j ∈ w.db.jobs,
      ∃ policy, w.createdWith j.name = some policy ∧ j.policy = some policy := by
  have hrun : World.Run (fun _ _ => True) World.empty (World.empty.play deadLettered) := World.play_run (by decide)
  refine ⟨hrun, ?_, fun hall => ?_⟩
  · unfold QueuePolicy.holdsBack goesBefore
    decide
  · have hnone : ∃ c ∈ (World.empty.play deadLettered).db.jobs, c.policy = none := by decide
    obtain ⟨c, hc, hnone⟩ := hnone
    obtain ⟨policy, -, hpolicy⟩ := hall _ hrun c hc
    simp [hnone] at hpolicy

/-- A job sent to a dead letter queue is moved to a queue of its own rules. -/
def redriven : List Statement :=
  [.createQueue (cappedQueue "work" .short none), .createQueue (cappedQueue "dead" .standard none), sendOnce "dead" 1]

/-- The redrive that moves it. -/
def redriveWork : Statement := .redriveJobs
  { deadLetter := "dead", destination := some "work", limit := 10, now := 5, newId := fun _ => 2 } []

/-- The theorem at that run and its redrive: the new row has the policy and the configuration. -/
theorem jobs_ruled_redriven : ∃ db', redriveWork.exec (World.empty.play redriven).db = .ok db' ∧
    ∃ r ∈ db'.jobs, r.name = "work" ∧ r.policy = some .short ∧ ∃ q : Queue, q.Configures r := by
  have hrun : World.Run NoCopies World.empty (World.empty.play redriven) := World.play_run (by decide)
  obtain ⟨-, -, -, hstep⟩ := jobs_ruled hrun
  have hexec : ∃ db', redriveWork.exec (World.empty.play redriven).db = .ok db' ∧
      ∃ r ∈ db'.jobs, r.name = "work" ∧ r.policy = some .short ∧
        ∀ j ∈ (World.empty.play redriven).db.jobs, j.jobKey ≠ r.jobKey := ⟨_, rfl, by decide⟩
  obtain ⟨db', hexec, r, hr, hname, hpolicy, hnew⟩ := hexec
  obtain ⟨q, -, hq⟩ := (hstep redriveWork db' hexec).2 (by simp [NoCopies, redriveWork, Statement.isFailure]) rfl r hr hnew
  exact ⟨db', hexec, r, hr, hname, hpolicy, q, hq⟩

end DeadLettered

end PgBoss
