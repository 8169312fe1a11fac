import PgBoss.Lifecycle.Run
import PgBoss.Fetch.Conflict

/-!
# Queues in a run

Only `createQueue`, `updateQueue` and `deleteQueue` write to the queue table, and none of them
changes the policy of a queue that stays. Every job added to a queue carries its policy, the
dead letter copies apart, which carry none; so in every run a row is stamped with the policy
its queue was created with, or with nothing.
-/

namespace PgBoss

open Relational Relation

variable {db db' : Database} {s : Statement}

section Frame

/-- The statements that write to the queue table. -/
def Statement.configures : Statement → Bool
  | .createQueue _ => true
  | .updateQueue _ _ => true
  | .deleteQueue _ => true
  | _ => false

/-- The dependencies a statement inserts. -/
def Statement.links : Statement → List Dependency
  | .insertDependencies deps => deps
  | _ => []

theorem failJobsBody_frame {i : FailInput} {select : Job → Bool} {res : List Job}
    (h : failJobsBody i select db = .ok (db', res)) :
    db'.queues = db.queues ∧ db'.dependencies = db.dependencies := by
  simp only [failJobsBody] at h
  split at h
  · contradiction
  split at h
  · contradiction
  obtain ⟨rfl, -⟩ := Prod.mk.inj (Except.ok.inj h)
  exact ⟨rfl, rfl⟩

/-- What a statement leaves alone besides jobs: every queue unless it writes to queues, and every
dependency unless it inserts some. -/
theorem Statement.exec_frame (hdb : db.Allowed) (h : s.exec db = .ok db') :
    (s.configures = false → db'.queues = db.queues) ∧
      db'.dependencies = (PgBoss.insertDependencies s.links db).dependencies := by
  have hnone : (PgBoss.insertDependencies [] db).dependencies = db.dependencies := by
    simp [PgBoss.insertDependencies]
  have hupdate : ∀ {select : Job → Bool} {set : Job → Job}, (db.updateWhere select set).map Prod.fst = .ok db' →
      db'.queues = db.queues ∧ db'.dependencies = db.dependencies := fun h => by
    obtain ⟨ids, h⟩ := map_fst_ok h
    exact ⟨(Database.updateWhere_ok h).2.1, (Database.updateWhere_ok h).2.2.1⟩
  have hframe : s.links = [] → (db'.queues = db.queues ∧ db'.dependencies = db.dependencies) →
      (s.configures = false → db'.queues = db.queues) ∧
        db'.dependencies = (PgBoss.insertDependencies s.links db).dependencies := fun hlinks hsame =>
    ⟨fun _ => hsame.1, by rw [hlinks, hnone]; exact hsame.2⟩
  cases s with
  | insertJobs now name upsertByKey payload =>
    obtain ⟨inserted, h⟩ := map_fst_ok h
    obtain ⟨-, hqueues, hdeps, -⟩ := insertJobs_ok h
    exact hframe rfl ⟨hqueues, hdeps⟩
  | insertFlowJobs now name payload =>
    obtain ⟨inserted, h⟩ := map_fst_ok h
    obtain ⟨-, hqueues, hdeps, -⟩ := insertJobs_ok (insertFlowJobs_ok h)
    exact hframe rfl ⟨hqueues, hdeps⟩
  | fetchNextJob now rank locked o =>
    obtain ⟨rows, h⟩ := map_fst_ok h
    obtain ⟨-, hqueues, hdeps, -⟩ := fetchNextJob_ok h
    exact hframe rfl ⟨hqueues, hdeps⟩
  | completeJobs | completeJobsWithOutputs | cancelJobs | touchJobs | resumeJobs | restoreJobs | retryJobs
  | decrementDependents | clearBlocking => exact hframe rfl (hupdate h)
  | deleteJobsById | deleteJobsBatch =>
    obtain rfl := Except.ok.inj h
    exact hframe rfl ⟨rfl, rfl⟩
  | updateJob now name target o =>
    simp only [exec, PgBoss.updateJob] at h
    split at h
    · contradiction
    exact hframe rfl (hupdate h)
  | failJobs i call =>
    obtain ⟨rows, h⟩ := map_fst_ok h
    rw [call.run_eq] at h
    exact hframe rfl (failJobsBody_frame h)
  | failDistributed i call =>
    obtain ⟨count, h⟩ := map_fst_ok h
    rw [call.run_eq i hdb] at h
    have hloop := reinsertFailedJobs_looped h
    exact hframe rfl ⟨hloop.queues, hloop.dependencies⟩
  | redriveJobs o locked =>
    obtain ⟨n, h⟩ := map_fst_ok h
    obtain ⟨-, -, -, hqueues, hdeps, -⟩ := redriveJobs_rows hdb h
    exact hframe rfl ⟨hqueues, hdeps⟩
  | insertDependencies deps =>
    obtain rfl := Except.ok.inj h
    exact ⟨fun _ => rfl, rfl⟩
  | createQueue q => exact ⟨fun hs => by simp [configures] at hs, by rw [(createQueue_ok h).2.1]; exact hnone.symm⟩
  | updateQueue name o =>
    exact ⟨fun hs => by simp [configures] at hs, by rw [(updateQueue_ok h).2.1]; exact hnone.symm⟩
  | deleteQueue name =>
    exact ⟨fun hs => by simp [configures] at hs, by rw [(deleteQueue_ok h).2.2]; exact hnone.symm⟩
  | moveRows swap =>
    simp only [exec] at h
    split at h <;> obtain rfl := Except.ok.inj h <;> exact hframe rfl ⟨rfl, rfl⟩

end Frame

section Policies

/-- The failure statements, whose added rows are the dead letter copies they make. -/
def Statement.isFailure : Statement → Bool
  | .failJobs _ _ => true
  | .failDistributed _ _ => true
  | _ => false

/-- Every row's queue exists and the row carries its policy, or none in a queue that may hold copies. -/
def Database.Stamped (copies : String → Prop) (db : Database) : Prop :=
  ∀ j ∈ db.jobs, ∃ q, db.queue j.name = some q ∧ (j.policy = some q.policy ∨ copies j.name ∧ j.policy = none)

/-- A queue is found under its own name. -/
theorem queue_self {name : String} {q : Queue} (h : db.queue name = some q) : db.queue q.name = some q := by
  rwa [Database.queue_name h]

/-- The rows an insert is to add. -/
def Statement.payload : Statement → List (JobInsert × Uuid)
  | .insertJobs _ _ _ payload => payload
  | .insertFlowJobs _ _ payload => payload
  | _ => []

/-- What a row that a statement adds is made from. -/
inductive Statement.Added (s : Statement) (db : Database) (r : Job) : Prop
  | inserted (now : Timestamp) (upsertByKey : Bool) {name : String} {q : Queue} {x : JobInsert} {drawn : Uuid}
    (hqueue : db.queue name = some q) (hx : (x, drawn) ∈ s.payload)
    (hrow : r = insertRow now name (some q) upsertByKey drawn x)
  | copied (i : FailInput) (j row : Job) {q : Queue} (hfailure : s.isFailure = true)
    (hqueue : db.queue q.name = some q) (hrow : r = deadLetterRow i j row q)
  | redriven (o : RedriveOptions) (m : Job) {q : Queue} (hqueue : db.queue q.name = some q)
    (hrow : r = redriveRow o m q)

theorem adds_inserted {now : Timestamp} {name : String} {upsertByKey : Bool} {inserted : List Job} {r : Job}
    (h : PgBoss.insertJobs now name upsertByKey s.payload db = .ok (db', inserted)) (hr : r ∈ inserted) :
    s.Added db r := by
  obtain ⟨q, x, drawn, hq, hx, rfl⟩ := (insertJobs_ok h).2.2.2.2 r hr
  exact .inserted now upsertByKey hq hx rfl

/-- A row a statement adds comes from its payload, a failed job or a dead letter row. -/
theorem adds_cases {r : Job} (hr : r ∈ s.adds db) : s.Added db r := by
  cases s with
  | insertJobs now name upsertByKey payload =>
    simp only [Statement.adds] at hr
    split at hr
    · rename_i hinsert
      exact adds_inserted hinsert hr
    · cases hr
  | insertFlowJobs now name payload =>
    simp only [Statement.adds] at hr
    split at hr
    · rename_i hinsert
      exact adds_inserted (insertFlowJobs_ok hinsert) hr
    · cases hr
  | failJobs i call =>
    obtain ⟨j, q, row, -, -, hq, rfl⟩ := deadLetterCopies_mem hr
    obtain ⟨name, -, hq⟩ := Option.bind_eq_some_iff.mp hq
    exact .copied _ j row rfl (queue_self hq) rfl
  | failDistributed i call =>
    have hcopy : ∃ j ∈ call.selected i.now db, IsCopy (call.input i) db j r := isCopy_of_mem hr rfl
    obtain ⟨j, -, q, hq, rfl⟩ := hcopy
    obtain ⟨name, -, hq⟩ := Option.bind_eq_some_iff.mp hq
    exact .copied _ j _ rfl (queue_self hq) rfl
  | redriveJobs o locked =>
    obtain ⟨m, -, hrow⟩ := List.mem_filterMap.mp hr
    obtain ⟨q, hq, rfl⟩ := Option.map_eq_some_iff.mp hrow
    obtain ⟨name, -, hq⟩ := Option.bind_eq_some_iff.mp hq
    exact .redriven o m (queue_self hq) rfl
  | _ => cases hr

/-- A row that is added belongs to a queue that exists, and carries its policy unless it is a copy. -/
theorem adds_stamped {r : Job} (hr : r ∈ s.adds db) :
    ∃ q, db.queue r.name = some q ∧ (r.policy = some q.policy ∨ s.isFailure = true ∧ r.policy = none) := by
  rcases adds_cases hr with ⟨_, _, hqueue, -, rfl⟩ | ⟨_, _, _, hfailure, hqueue, rfl⟩ | ⟨_, _, hqueue, rfl⟩
  · exact ⟨_, hqueue, .inl rfl⟩
  · exact ⟨_, hqueue, .inr ⟨hfailure, rfl⟩⟩
  · exact ⟨_, hqueue, .inl rfl⟩

/-- The queue of a row that is left was there before under the same policy, if it was there. -/
theorem queue_kept (hdb : db.Allowed) (hexec : s.exec db = .ok db') {r : Job} (hr : r ∈ db'.jobs) {q : Queue}
    (hq : db.queue r.name = some q) : ∃ q', db'.queue r.name = some q' ∧ q'.policy = q.policy := by
  by_cases hs : s.configures = false
  · refine ⟨q, ?_, rfl⟩
    rwa [Database.queue, ((s.exec_frame hdb hexec).1 hs)]
  cases s with
  | createQueue new =>
    refine ⟨q, ?_, rfl⟩
    rw [Database.queue, (createQueue_ok hexec).2.2]
    split
    · exact hq
    · rw [List.find?_append, show db.queues.find? _ = some q from hq, Option.some_or]
  | updateQueue name o =>
    refine ⟨_, ((updateQueue_ok hexec).2.2 r.name).trans (congrArg _ hq), ?_⟩
    show (if q.name = name then updateQueueSet o q else q).policy = q.policy
    split <;> rfl
  | deleteQueue name =>
    obtain ⟨hjobs, hqueues, -⟩ := deleteQueue_ok hexec
    rw [hjobs] at hr
    have hne : r.name ≠ name := of_decide_eq_true (List.mem_filter.mp hr).2
    refine ⟨q, ?_, rfl⟩
    rw [Database.queue, hqueues, List.find?_filter, ← hq, Database.queue]
    congr 1
    funext k
    by_cases hk : k.name = r.name <;> simp [hk, hne]
  | _ => simp [Statement.configures] at hs

/-- One statement keeps rows stamped. -/
theorem Database.Stamped.step {copies : String → Prop} (h : db.Stamped copies) (hdb : db.Allowed)
    (hcopies : s.isFailure = true → ∀ r ∈ s.adds db, copies r.name) (hexec : s.exec db = .ok db') :
    db'.Stamped copies := by
  intro r hr
  have hstay : ∀ {j : Job}, j ∈ db.jobs → r.jobKey = j.jobKey → r.policy = j.policy →
      ∃ q, db.queue r.name = some q ∧ (r.policy = some q.policy ∨ copies r.name ∧ r.policy = none) := by
    intro j hj hkey hpolicy
    rw [hpolicy, show r.name = j.name from congrArg Prod.fst hkey]
    exact h j hj
  have hrow : ∃ q, db.queue r.name = some q ∧ (r.policy = some q.policy ∨ copies r.name ∧ r.policy = none) := by
    cases (s.exec_effect hdb hexec).rows r hr with
    | moved hj hmove => exact hstay hj hmove.jobKey hmove.policy
    | claimed hj _ _ hset _ => exact hstay hj (hset ▸ rfl) (hset ▸ rfl)
    | restored _ hj _ hset => exact hstay hj (hset ▸ rfl) (hset ▸ rfl)
    | added hadd =>
      obtain ⟨q, hq, hpolicy | ⟨hfail, hpolicy⟩⟩ := adds_stamped hadd
      · exact ⟨q, hq, .inl hpolicy⟩
      · exact ⟨q, hq, .inr ⟨hcopies hfail r hadd, hpolicy⟩⟩
  obtain ⟨q, hq, hpolicy⟩ := hrow
  obtain ⟨q', hq', hsame⟩ := queue_kept hdb hexec hr hq
  exact ⟨q', hq', hsame ▸ hpolicy⟩

end Policies

section Created

variable {may : World → Statement → Prop} {w w' : World}

/-- Before anything was created. -/
def World.empty : World where
  db := {}
  seen := []

theorem World.empty_allowed : World.empty.db.Allowed :=
  ⟨by simp [World.empty, Consistent], by simp [World.empty]⟩

/-- The policy a queue was last created with. -/
def World.createdWith (w : World) (name : String) : Option QueuePolicy := w.created.lookup name

/-- A queue keeps the policy it was created with. -/
def World.PoliciesKept (w : World) : Prop :=
  ∀ name q, w.db.queue name = some q → w.createdWith name = some q.policy

theorem World.PoliciesKept.next (h : w.PoliciesKept) (hdb : w.db.Allowed) (hexec : s.exec w.db = .ok db') :
    (w.next s db').PoliciesKept := by
  intro name q hq
  have hold : s.creates w.db = [] → ∀ q₀, w.db.queue name = some q₀ → q₀.policy = q.policy →
      (w.next s db').createdWith name = some q.policy := fun hnone q₀ hq₀ hsame => by
    rw [World.createdWith, World.next]
    simp only [hnone, List.nil_append]
    rw [← hsame]
    exact h name q₀ hq₀
  by_cases hs : s.configures = false
  · have hq₀ : w.db.queue name = some q := by
      rwa [Database.queue, ← (s.exec_frame hdb hexec).1 hs]
    exact hold (by cases s <;> simp_all [Statement.configures, Statement.creates]) q hq₀ rfl
  cases s with
  | createQueue new =>
    have hq : db'.queues.find? (fun q => decide (q.name = name)) = some q := hq
    rw [(createQueue_ok hexec).2.2] at hq
    split at hq
    · rename_i hthere
      exact hold (by simp [Statement.creates, hthere]) q hq rfl
    · rename_i hnew
      rw [List.find?_append] at hq
      have hcreates : (w.next (.createQueue new) db').created = (new.name, new.policy) :: w.created := by
        simp [World.next, Statement.creates, hnew]
      rw [World.createdWith, hcreates, List.lookup_cons]
      rcases Option.or_eq_some_iff.mp hq with hq | ⟨-, hq⟩
      · have hne : (name == new.name) = false := by
          refine beq_false_of_ne fun heq => hnew ?_
          rw [← heq, show w.db.queue name = some q from hq]
          rfl
        rw [hne]
        exact h name q hq
      · obtain ⟨hmem, hname⟩ : new = q ∧ new.name = name := by
          simp only [List.find?_cons, List.find?_nil] at hq
          split at hq
          · rename_i hname
            exact ⟨Option.some.inj hq, of_decide_eq_true hname⟩
          · contradiction
        rw [← hname, beq_self_eq_true, hmem]
  | updateQueue n o =>
    have hq : db'.queue name = some q := hq
    rw [(updateQueue_ok hexec).2.2 name] at hq
    obtain ⟨q₀, hq₀, hset⟩ := Option.map_eq_some_iff.mp hq
    exact hold rfl q₀ hq₀ (by rw [← hset]; split <;> rfl)
  | deleteQueue n =>
    have hq : db'.queues.find? (fun q => decide (q.name = name)) = some q := hq
    rw [(deleteQueue_ok hexec).2.1, List.find?_filter] at hq
    have hne : name ≠ n := fun heq => by
      have := List.find?_some hq
      simp [heq] at this
    refine hold rfl q ?_ rfl
    rw [← hq, Database.queue]
    congr 1
    funext k
    by_cases hk : k.name = name <;> simp [hk, hne]
  | _ => simp [Statement.configures] at hs

/-- What every run from nothing keeps, of the rows and their queues. -/
structure World.Ruled (copies : String → Prop) (w : World) : Prop where
  allowed : w.db.Allowed
  stamped : w.db.Stamped copies
  policies : w.PoliciesKept

theorem World.empty_ruled (copies : String → Prop) : World.empty.Ruled copies where
  allowed := World.empty_allowed
  stamped := by simp [Database.Stamped, World.empty]
  policies name q hq := by simp [World.empty, Database.queue] at hq

theorem World.Ruled.step {copies : String → Prop} (h : w.Ruled copies) (hexec : s.exec w.db = .ok db')
    (hcopies : s.isFailure = true → ∀ r ∈ s.adds w.db, copies r.name) : (w.next s db').Ruled copies where
  allowed := (s.exec_effect h.allowed hexec).allowed
  stamped := h.stamped.step h.allowed hcopies hexec
  policies := h.policies.next h.allowed hexec

/-- A run that puts copies in those queues only keeps the rows of the others stamped. -/
theorem ruled_run {copies : String → Prop} (hrun : World.Run may World.empty w)
    (hmay : ∀ w s, may w s → s.isFailure = true → ∀ r ∈ s.adds w.db, copies r.name) : w.Ruled copies :=
  hrun.invariant (World.empty_ruled copies) fun w s _ h hs hexec => h.step hexec (hmay w s hs)

/-- In every run the rows of a queue carry its policy or none. -/
theorem stampedFor_run (hrun : World.Run may World.empty w) {name : String} {q : Queue}
    (hq : w.db.queue name = some q) : w.db.StampedFor name q.policy := by
  intro j hj hname
  have hruled : w.Ruled fun _ => True := ruled_run hrun fun _ _ _ _ _ _ => trivial
  obtain ⟨q', hq', hpolicy⟩ := hruled.stamped j hj
  rw [hname, hq] at hq'
  obtain rfl := Option.some.inj hq'
  exact hpolicy.imp id And.right

end Created

end PgBoss
