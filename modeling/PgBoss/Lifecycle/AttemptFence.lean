import PgBoss.Lifecycle.Run

/-!
# The attempt fence

A claim counts a retry when the job has been started before, and nothing but a restore
forgets that it was. So while a job is in the table its retry count is at least that of every
claim handed out for it, the next claim has a larger one, and an active job is at the count of
its latest claim. A settle fenced with a claim's pair finds the job active at that count, or
finds nothing.
-/

namespace PgBoss

open Relational

/-- No restore, and no job added under a name and id a job has had. -/
def Unrestored (w : World) (s : Statement) : Prop :=
  s.isRestore = false ∧ ∀ r ∈ s.adds w.db, r.jobKey ∉ w.seen

instance (w : World) (s : Statement) : Decidable (Unrestored w s) := inferInstanceAs (Decidable (_ ∧ _))

/-- The retry count of the latest claim of a job. -/
def World.latest (w : World) (key : JobKey) : Option ℕ :=
  (w.claims.find? fun c => c.1 = key).map Prod.snd

/-- The job is active under one of the attempts, which is its latest claim. -/
def World.HeldUnder (w : World) (name : String) (attempts : List JobAttempt) (j : Job) : Prop :=
  j.name = name ∧ j.state = .active ∧ ∃ a ∈ attempts, a.id = j.id ∧ w.latest j.jobKey = some a.retryCount

/-- What a run without restores keeps. -/
structure World.Fenced (w : World) : Prop where
  allowed : w.db.Allowed
  seen : ∀ j ∈ w.db.jobs, j.jobKey ∈ w.seen
  claimed : ∀ c ∈ w.claims, c.1 ∈ w.seen
  counted : ∀ c ∈ w.claims, ∀ j ∈ w.db.jobs, j.jobKey = c.1 → j.startedOn.isSome = true ∧ c.2 ≤ j.retryCount
  distinct : w.claims.Pairwise fun a b => a.1 = b.1 → a.2 ≠ b.2
  held : ∀ j ∈ w.db.jobs, j.state = .active → ∀ n, w.latest j.jobKey = some n → n = j.retryCount

variable {w₀ w : World} {s : Statement} {db' : Database}

theorem World.Start.fenced (h : w.Start) : w.Fenced where
  allowed := h.allowed
  seen := h.seen
  claimed c hc := by simp [h.claims] at hc
  counted c hc := by simp [h.claims] at hc
  distinct := by simp [h.claims]
  held j _ _ n hn := by simp [World.latest, h.claims] at hn

section Step

/-- The first claim recorded of a key is that of the claimed row with the key, if there is one. -/
theorem World.latest_next (w : World) (s : Statement) (db' : Database) (key : JobKey) {n : ℕ}
    (hn : (w.next s db').latest key = some n) :
    (∃ c ∈ s.claimed w.db, c.jobKey = key ∧ c.retryCount = n) ∨
      (∀ c ∈ s.claimed w.db, c.jobKey ≠ key) ∧ w.latest key = some n := by
  obtain ⟨⟨k, m⟩, hfind, rfl⟩ := Option.map_eq_some_iff.mp hn
  simp only [World.next, List.find?_append] at hfind
  cases hnew : ((s.claimed w.db).map Job.claim).find? (fun c => c.1 = key) with
  | some c =>
    rw [hnew, Option.some_or, Option.some.injEq] at hfind
    subst hfind
    obtain ⟨j, hj, hjc⟩ := List.mem_map.mp (List.mem_of_find?_eq_some hnew)
    obtain ⟨rfl, rfl⟩ := Prod.mk.inj hjc
    exact .inl ⟨j, hj, by simpa using List.find?_some hnew, rfl⟩
  | none =>
    rw [hnew, Option.none_or] at hfind
    refine .inr ⟨fun c hc hkey => ?_, by rw [World.latest, hfind]; rfl⟩
    simpa [Job.claim, hkey] using List.find?_eq_none.mp hnew _ (List.mem_map_of_mem hc)

/-- One statement keeps the fence. -/
theorem World.Fenced.step (h : w.Fenced) (hmay : Unrestored w s) (hexec : s.exec w.db = .ok db') :
    (w.next s db').Fenced := by
  have hallowed := (s.exec_effect h.allowed hexec).allowed
  obtain ⟨hclaimed, hpairwise⟩ := claimed_spec h.allowed hexec
  have hrow := fun {r : Job} (hr : r ∈ db'.jobs) => row_origin h.allowed hmay.1 hexec hr
  -- a claim of the row's key that was handed out before is counted in the row it comes from
  have hclaim : ∀ {c : Job}, c ∈ s.claimed w.db → ∀ p ∈ w.claims, p.1 = c.jobKey → p.2 < c.retryCount := by
    intro c hc p hp hkey
    obtain ⟨-, -, now, j, hj, rfl, -⟩ := hclaimed c hc
    obtain ⟨hstart, hle⟩ := h.counted p hp j hj hkey.symm
    simp only [claimSet, hstart, if_true]
    omega
  refine ⟨hallowed, fun r hr => ?_, fun p hp => ?_, fun p hp r hr hkey => ?_, ?_, fun r hr hactive n hn => ?_⟩
  · rcases hrow hr with ⟨j, hj, hkey, -⟩ | ⟨j, hj, now, rfl, -⟩ | hadd
    · exact List.mem_append_right _ (hkey ▸ h.seen j hj)
    · exact List.mem_append_right _ (h.seen j hj)
    · exact List.mem_append_left _ (List.mem_map_of_mem hadd)
  · refine List.mem_append_right _ ?_
    rcases List.mem_append.mp hp with hp | hp
    · obtain ⟨c, hc, rfl⟩ := List.mem_map.mp hp
      obtain ⟨-, -, now, j, hj, rfl, -⟩ := hclaimed c hc
      exact h.seen j hj
    · exact h.claimed p hp
  · rcases List.mem_append.mp hp with hp | hp
    · obtain ⟨c, hc, rfl⟩ := List.mem_map.mp hp
      obtain ⟨hmem, -, now, j, -, hset, -⟩ := hclaimed c hc
      obtain rfl := hallowed.eq_of_jobKey hr hmem hkey
      exact ⟨by rw [hset, claimSet_startedOn]; rfl, le_rfl⟩
    · rcases hrow hr with ⟨j, hj, hjkey, hcount, hstart, -⟩ | ⟨j, hj, now, rfl, hc⟩ | hadd
      · rw [hcount, hstart]
        exact h.counted p hp j hj (hjkey.symm.trans hkey)
      · exact ⟨rfl, (hclaim hc p hp hkey.symm).le⟩
      · exact absurd (hkey ▸ h.claimed p hp) (hmay.2 r hadd)
  · refine List.pairwise_append.mpr ⟨?_, h.distinct, fun a ha b hb hkey => ?_⟩
    · exact List.pairwise_map.mpr (hpairwise.imp fun hne hkey => absurd hkey hne)
    · obtain ⟨c, hc, rfl⟩ := List.mem_map.mp ha
      exact (hclaim hc b hb hkey.symm).ne'
  · rcases w.latest_next s db' r.jobKey hn with ⟨c, hc, hkey, rfl⟩ | ⟨hnone, hold⟩
    · rw [hallowed.eq_of_jobKey hr (hclaimed c hc).1 hkey.symm]
    · rcases hrow hr with ⟨j, hj, hjkey, hcount, -, hjactive⟩ | ⟨j, hj, now, rfl, hc⟩ | hadd
      · rw [hcount]
        exact h.held j hj (hjactive hactive) n (hjkey ▸ hold)
      · exact absurd rfl (hnone _ hc)
      · obtain ⟨p, hp, -⟩ := Option.map_eq_some_iff.mp hold
        have hpkey : p.1 = r.jobKey := by simpa using List.find?_some hp
        exact absurd (hpkey ▸ h.claimed p (List.mem_of_find?_eq_some hp)) (hmay.2 r hadd)

end Step

/-- The calls a claim can fence: `complete`, `fail`, `cancel`, `touch` and `deleteJob` by id, on either
failure path, and the per-job settles. -/
inductive FencedCall
  | complete (now : Timestamp) (output : Option Json) (includeQueued : Bool)
  | completeEach (now : Timestamp) (output : JobAttempt → Option Json)
  | fail (i : FailInput)
  | failEach (i : FailInput) (output : JobAttempt → Option Json) (terminal : Bool)
  | failDistributed (i : ReinsertInput)
  | failEachDistributed (i : ReinsertInput) (output : JobAttempt → Option Json) (terminal : Bool)
  | cancel (now : Timestamp)
  | touch (now : Timestamp)
  | deleteJob

/-- The statement of a call fenced with the attempts, whose ids it names. -/
def FencedCall.statement (name : String) (attempts : List JobAttempt) : FencedCall → Statement
  | complete now output includeQueued =>
    .completeJobs now name (attempts.map JobAttempt.id) output includeQueued (some attempts)
  | completeEach now output => .completeJobsWithOutputs now name (attempts.map fun a => (a, output a))
  | fail i => .failJobs i (.fail name (attempts.map JobAttempt.id) (some attempts))
  | failEach i output terminal =>
    .failJobs i (.failWithOutputs name (attempts.map fun a => (a, output a)) terminal)
  | failDistributed i => .failDistributed i (.fail name (attempts.map JobAttempt.id) (some attempts))
  | failEachDistributed i output terminal =>
    .failDistributed i (.failWithOutputs name (attempts.map fun a => (a, output a)) terminal)
  | cancel now => .cancelJobs now name (attempts.map JobAttempt.id) (some attempts)
  | touch now => .touchJobs now name (attempts.map JobAttempt.id) (some attempts)
  | deleteJob => .deleteJobsById name (attempts.map JobAttempt.id) (some attempts)

/-- The rows a fence lets through. -/
def fenceSelects (name : String) (attempts : List JobAttempt) (j : Job) : Bool :=
  decide (j.name = name) && attemptFence attempts j

/-- A statement leaves every row alone that the predicate does not select, and all of the tables
when it selects none. -/
def ConfinedTo (select : Job → Bool) (db db' : Database) : Prop :=
  (∀ j ∈ db.jobs, select j = false → j ∈ db'.jobs) ∧ ((∀ j ∈ db.jobs, select j = false) → db' = db)

section Confined

variable {db : Database} {select narrower : Job → Bool}

theorem ConfinedTo.weaken (h : ConfinedTo narrower db db') (hsel : ∀ j, narrower j = true → select j = true) :
    ConfinedTo select db db' := by
  have hnot : ∀ j, select j = false → narrower j = false := fun j hj => by
    by_contra hne
    simp [hsel j (by simpa using hne)] at hj
  exact ⟨fun j hj hs => h.1 j hj (hnot j hs), fun hall => h.2 fun j hj => hnot j (hall j hj)⟩

theorem confined_update {set : Job → Job} (h : (db.updateWhere select set).map Prod.fst = .ok db') :
    ConfinedTo select db db' := by
  obtain ⟨ids, hrun⟩ := map_fst_ok h
  obtain ⟨hjobs, hqueues, hdeps, -⟩ := Database.updateWhere_ok hrun
  refine ⟨fun j hj hs => (Database.updateWhere_mem hrun).mpr (.inl ⟨hj, hs⟩), fun hall => ?_⟩
  have hsame : db'.jobs = db.jobs := by
    rw [hjobs]
    exact (List.map_congr_left fun j hj => by rw [hall j hj]; rfl).trans (List.map_id _)
  cases db'
  cases db
  simp_all

theorem confined_fail {i : FailInput} {call : FailCall} (h : (Statement.failJobs i call).exec db = .ok db') :
    ConfinedTo (call.selects i.now db) db db' := by
  obtain ⟨rows, hrun⟩ := map_fst_ok h
  rw [call.run_eq] at hrun
  refine ⟨fun j hj hs => (failJobsBody_mem hrun).mpr (.inl ⟨hj, hs⟩), fun hall => ?_⟩
  have hnone : db.jobs.filter (call.selects i.now db) = [] :=
    List.filter_eq_nil_iff.mpr fun j hj => by simp [hall j hj]
  simp only [failJobsBody, hnone, retriedJobs, failedJobs, List.filter_nil, List.map_nil, insertOrRaise,
    failResults, List.append_nil, dlqJobs, List.filterMap_nil, Except.ok.injEq, Prod.mk.injEq] at hrun
  exact hrun.1.symm

theorem confined_failDistributed {i : ReinsertInput} {call : ReinsertCall} (hdb : db.Allowed)
    (h : (Statement.failDistributed i call).exec db = .ok db')
    (hsel : ∀ j ∈ db.jobs, j ∈ call.selected i.now db ↔ select j = true) : ConfinedTo select db db' := by
  obtain ⟨count, hrun⟩ := map_fst_ok h
  rw [call.run_eq i hdb] at hrun
  refine ⟨fun j hj hs => (reinsertFailedJobs_looped hrun).keeps j ?_, fun hall => ?_⟩
  · refine List.mem_filter.mpr ⟨hj, decide_eq_true fun hmem => ?_⟩
    simp [(hsel j hj).mp hmem] at hs
  · have hnone : call.selected i.now db = [] := List.eq_nil_iff_forall_not_mem.mpr fun j hj => by
      have hjdb := (call.selection i.now hdb).mem j hj
      exact absurd (hall j hjdb) (by simp [(hsel j hjdb).mp hj])
    rw [hnone, reinsertFailedJobs] at hrun
    obtain ⟨rfl, -⟩ := Prod.mk.inj (Except.ok.inj hrun)
    simp [Database.without]

/-- A fenced call touches rows its fence lets through and no others. -/
theorem FencedCall.confined (call : FencedCall) {name : String} {attempts : List JobAttempt} (hdb : db.Allowed)
    (h : (call.statement name attempts).exec db = .ok db') : ConfinedTo (fenceSelects name attempts) db db' := by
  have hitems : ∀ output : JobAttempt → Option Json,
      (attempts.map fun a => (a, output a)).map Prod.fst = attempts := fun output => by
    rw [List.map_map]
    exact (List.map_congr_left fun a _ => rfl).trans (List.map_id _)
  cases call with
  | complete now output includeQueued =>
    refine (confined_update h).weaken fun j hj => ?_
    simp only [completeSelects, named, fence, Bool.and_eq_true] at hj
    simp only [fenceSelects, Bool.and_eq_true]
    exact ⟨hj.1.1.1, hj.2⟩
  | completeEach now output =>
    refine (confined_update h).weaken fun j hj => ?_
    rwa [hitems output] at hj
  | fail i =>
    refine (confined_fail h).weaken fun j hj => ?_
    simp only [FailCall.selects, failSelects, named, fence, Bool.and_eq_true] at hj
    simp only [fenceSelects, Bool.and_eq_true]
    exact ⟨hj.1.1.1, hj.2⟩
  | failEach i output terminal =>
    refine (confined_fail h).weaken fun j hj => ?_
    simp only [FailCall.selects, failItemSelects, hitems output] at hj
    exact hj
  | failDistributed i =>
    refine confined_failDistributed hdb h fun j hj => ?_
    simp only [ReinsertCall.selected, List.mem_filter, failSelects, named, fence, attemptFence, fenceSelects,
      Bool.and_eq_true, decide_eq_true_eq]
    constructor
    · rintro ⟨-, ⟨⟨hname, -⟩, -⟩, hactive, hmem⟩
      exact ⟨hname, hactive, hmem⟩
    · rintro ⟨hname, hactive, hmem⟩
      exact ⟨hj, ⟨⟨hname, List.mem_map.mpr ⟨_, hmem, rfl⟩⟩, by simp [hactive]⟩, hactive, hmem⟩
  | failEachDistributed i output terminal =>
    refine confined_failDistributed hdb h fun j hj => ?_
    simp only [ReinsertCall.selected, List.mem_filter, failSelects, named, fence, attemptFence, fenceSelects,
      Bool.and_eq_true, decide_eq_true_eq, hitems output, List.map_map]
    constructor
    · rintro ⟨-, ⟨⟨hname, -⟩, -⟩, hactive, hmem⟩
      exact ⟨hname, hactive, hmem⟩
    · rintro ⟨hname, hactive, hmem⟩
      exact ⟨hj, ⟨⟨hname, List.mem_map.mpr ⟨_, hmem, rfl⟩⟩, by simp [hactive]⟩, hactive, hmem⟩
  | cancel now =>
    refine (confined_update h).weaken fun j hj => ?_
    simp only [cancelSelects, named, fence, Bool.and_eq_true] at hj
    simp only [fenceSelects, Bool.and_eq_true]
    exact ⟨hj.1.1.1, hj.2⟩
  | touch now =>
    refine (confined_update h).weaken fun j hj => ?_
    simp only [touchSelects, named, fence, Bool.and_eq_true] at hj
    simp only [fenceSelects, Bool.and_eq_true]
    exact ⟨hj.1.1.1, hj.2⟩
  | deleteJob =>
    obtain rfl : { db with jobs := db.jobs.filter fun j =>
        !(named name (attempts.map JobAttempt.id) j && fence (some attempts) j) } = db' := by
      simpa [statement, Statement.exec, PgBoss.deleteJobsById, Database.deleteWhere, Except.map] using h
    have hsel : ∀ j, fenceSelects name attempts j = false →
        (named name (attempts.map JobAttempt.id) j && fence (some attempts) j) = false := by
      intro j hj
      by_contra hne
      simp only [named, fence, Bool.not_eq_false, Bool.and_eq_true] at hne
      simp [fenceSelects, hne.1.1, hne.2] at hj
    refine ⟨fun j hj hs => List.mem_filter.mpr ⟨hj, by simp [hsel j hs]⟩, fun hall => ?_⟩
    have hsame : (db.jobs.filter fun j =>
        !(named name (attempts.map JobAttempt.id) j && fence (some attempts) j)) = db.jobs :=
      List.filter_eq_self.mpr fun j hj => by simp [hsel j (hall j hj)]
    rw [hsame]

end Confined

/-- In every run without restores, two claims of one job carry distinct retry counts; and a call
fenced with pairs of claims leaves every job alone that is not active under one of them, and
changes nothing when no job is. -/
theorem claims_fenced (hstart : w₀.Start) (hrun : World.Run Unrestored w₀ w) :
    (w.claims.Pairwise fun a b => a.1 = b.1 → a.2 ≠ b.2) ∧
      ∀ (call : FencedCall) (name : String) (attempts : List JobAttempt) (db' : Database),
        (∀ a ∈ attempts, ((name, a.id), a.retryCount) ∈ w.claims) →
        (call.statement name attempts).exec w.db = .ok db' →
        (∀ j ∈ w.db.jobs, ¬ w.HeldUnder name attempts j → j ∈ db'.jobs) ∧
          ((∀ j ∈ w.db.jobs, ¬ w.HeldUnder name attempts j) → db' = w.db) := by
  have hfenced : w.Fenced := hrun.invariant hstart.fenced fun w s db' h hmay hexec => h.step hmay hexec
  refine ⟨hfenced.distinct, fun call name attempts db' hclaims hexec => ?_⟩
  have hconfined := call.confined hfenced.allowed hexec
  -- a row the fence lets through is active at the count of a claim, which is then the latest one
  have hheld : ∀ j ∈ w.db.jobs, ¬ w.HeldUnder name attempts j → fenceSelects name attempts j = false := by
    intro j hj hnot
    by_contra hsel
    simp only [fenceSelects, attemptFence, Bool.not_eq_false, Bool.and_eq_true, decide_eq_true_eq] at hsel
    obtain ⟨hname, hactive, hmem⟩ := hsel
    have hclaim : (j.jobKey, j.retryCount) ∈ w.claims := by
      simpa [Job.jobKey, Job.attempt, hname] using hclaims _ hmem
    obtain ⟨c, hc⟩ := Option.isSome_iff_exists.mp (List.find?_isSome.mpr
      ⟨_, hclaim, decide_eq_true rfl⟩ : (w.claims.find? fun c => c.1 = j.jobKey).isSome = true)
    have hlatest : w.latest j.jobKey = some c.2 := by rw [World.latest, hc]; rfl
    refine hnot ⟨hname, hactive, j.attempt, hmem, rfl, ?_⟩
    rw [hlatest, hfenced.held j hj hactive c.2 hlatest]
    rfl
  exact ⟨fun j hj hnot => hconfined.1 j hj (hheld j hj hnot),
    fun hall => hconfined.2 fun j hj => hheld j hj (hall j hj)⟩

section Reclaimed

/-- A waiting job of a queue. -/
def waitingJob (id : Uuid) : Job where
  id := id
  name := "q"
  startAfter := 0
  createdOn := 0
  keepUntil := 0

/-- The queue with one job. -/
def oneJob : World where
  db := { jobs := [waitingJob 1] }
  seen := [("q", 1)]

/-- A fetch of the queue. -/
def fetchOne (now : Timestamp) : Statement := .fetchNextJob now (fun _ => 0) [] { name := "q", policy := .standard }

/-- A worker claims the job, another call fails it, and a second worker claims it again. -/
def reclaimed : List Statement :=
  [fetchOne 1, .failJobs ⟨2, fun _ => 0, fun _ => 9, fun _ => none, false⟩ (.fail "q" [1] none), fetchOne 3]

/-- The theorem at that run: the claims are told apart, and the first worker's late completion
changes nothing. -/
theorem claims_fenced_reclaimed :
    (oneJob.play reclaimed).claims = [(("q", 1), 1), (("q", 1), 0)] ∧
      ∀ db', ((FencedCall.complete 4 none false).statement "q" [⟨1, 0⟩]).exec (oneJob.play reclaimed).db = .ok db' →
        db' = (oneJob.play reclaimed).db := by
  have hstart : oneJob.Start := ⟨⟨by decide, by decide⟩, rfl, by decide⟩
  have hrun : World.Run Unrestored oneJob (oneJob.play reclaimed) := World.play_run (by decide)
  refine ⟨by decide, fun db' hexec => ((claims_fenced hstart hrun).2 _ _ _ db' (by decide) hexec).2 ?_⟩
  unfold World.HeldUnder
  decide

end Reclaimed

end PgBoss
