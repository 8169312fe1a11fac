import PgBoss.Flow.Resolver

/-!
# The dependency counter

The counter of a child is the number of its parents whose `blocking` flag is set. A flow starts
it there; statements of users and workers touch neither; and a resolver statement that misses
no child takes from each counter exactly the flags it clears. What a child waits for is then
read off the dependency rows: it is blocked until every parent has completed and been
resolved, and each parent is counted once.
-/

namespace PgBoss

open Relational Relation

/-- The parent's row has its `blocking` flag set. -/
def parentBlocks (db : Database) (k : JobKey) : Bool := db.jobs.any fun j => decide (j.jobKey = k) && j.blocking

/-- How many of a job's parents have their flag set. -/
def openParents (db : Database) (child : JobKey) : ℕ :=
  db.dependencies.countP fun d => decide (d.child = child) && parentBlocks db d.parent

/-- How many of a job's parents have been resolved. -/
def resolvedParents (db : Database) (child : JobKey) : ℕ :=
  db.dependencies.countP fun d => decide (d.child = child) && !parentBlocks db d.parent

/-- How many parents a job has. -/
def parentCount (db : Database) (child : JobKey) : ℕ := db.dependencies.countP fun d => decide (d.child = child)

/-- What flows, passes and ordinary statements keep of the tables. -/
structure FlowInv (db : Database) : Prop where
  allowed : db.Allowed
  nodup : db.dependencies.Nodup
  present : ∀ k ∈ db.flowKeys, ∃ j ∈ db.jobs, j.jobKey = k
  counted : ∀ j ∈ db.jobs, j.pendingDependencies = openParents db j.jobKey
  blocked : ∀ j ∈ db.jobs, j.blocked = decide (0 < j.pendingDependencies)
  parent : ∀ j ∈ db.jobs, j.blocking = true → ∃ d ∈ db.dependencies, d.parent = j.jobKey
  resolved : ∀ d ∈ db.dependencies, ∀ j ∈ db.jobs, j.jobKey = d.parent → j.blocking = false → j.state = .completed

/-- What holds of the passes in flight: the parents they have locked are completed parents whose flag
is set, and no two passes hold the same one. -/
structure PassesInv (w : FlowWorld) : Prop where
  locked : ∀ p ∈ w.passes, ∀ k ∈ p.parents, ∃ j ∈ w.db.jobs, j.jobKey = k ∧ j.blocking = true ∧ j.state = .completed
  group : ∀ p ∈ w.passes, ∀ k ∈ p.group, k ∈ p.parents
  disjoint : w.passes.Pairwise fun p q => List.Disjoint p.parents q.parents

variable {db db' : Database} {s : Statement} {j r : Job} {k : JobKey}

section Keys

theorem mem_flowKeys : k ∈ db.flowKeys ↔ ∃ d ∈ db.dependencies, k = d.child ∨ k = d.parent := by
  simp [Database.flowKeys]

theorem parentBlocks_iff : parentBlocks db k = true ↔ ∃ j ∈ db.jobs, j.jobKey = k ∧ j.blocking = true := by
  simp [parentBlocks]

/-- The flag of a row is the flag of its key. -/
theorem parentBlocks_eq (hdb : db.Allowed) (hj : j ∈ db.jobs) : parentBlocks db j.jobKey = j.blocking := by
  rw [Bool.eq_iff_iff, parentBlocks_iff]
  constructor
  · rintro ⟨i, hi, hkey, hblocking⟩
    rwa [← hdb.eq_of_jobKey hi hj hkey]
  · exact fun hblocking => ⟨j, hj, rfl, hblocking⟩

/-- Open and resolved parents are all the parents. -/
theorem open_add_resolved (db : Database) (child : JobKey) :
    openParents db child + resolvedParents db child = parentCount db child := by
  rw [openParents, resolvedParents, parentCount, List.countP_eq_countP_filter_add db.dependencies
    (fun d => decide (d.child = child)) fun d => parentBlocks db d.parent, List.countP_filter, List.countP_filter]

/-- A job that no dependency names as a child has no parents. -/
theorem openParents_zero (h : k ∉ db.flowKeys) : openParents db k = 0 := by
  rw [openParents, List.countP_eq_zero]
  intro d hd hopen
  refine h (mem_flowKeys.mpr ⟨d, hd, .inl ?_⟩)
  exact (of_decide_eq_true ((Bool.and_eq_true _ _).mp hopen).1).symm

/-- Tables with the same dependencies and flags have the same counts. -/
theorem openParents_congr (hdeps : db'.dependencies = db.dependencies)
    (hflags : ∀ k ∈ db.flowKeys, parentBlocks db' k = parentBlocks db k) (child : JobKey) :
    openParents db' child = openParents db child := by
  rw [openParents, openParents, hdeps]
  exact List.countP_congr fun d hd => by rw [hflags d.parent (mem_flowKeys.mpr ⟨d, hd, .inr rfl⟩)]

end Keys

section Exec

/-- Rows an ordinary statement adds have no part in a flow. -/
theorem adds_plain (hord : s.ordinary = true) (hexec : s.exec db = .ok db') (hr : r ∈ s.adds db) :
    r.blocked = false ∧ r.blocking = false ∧ r.pendingDependencies = 0 := by
  cases s with
  | insertJobs now name upsertByKey payload =>
    obtain ⟨inserted, h⟩ := map_fst_ok hexec
    simp only [Statement.adds, h] at hr
    obtain ⟨q, x, drawn, -, hx, rfl⟩ := (insertJobs_ok h).2.2.2.2 r hr
    have hplain := List.all_eq_true.mp hord _ hx
    simp only [JobInsert.plain, Bool.and_eq_true, Option.isNone_iff_eq_none] at hplain
    simp [insertRow, hplain]
  | failJobs i call =>
    obtain ⟨j, q, row, -, -, -, rfl⟩ := deadLetterCopies_mem hr
    exact ⟨rfl, rfl, rfl⟩
  | failDistributed i call =>
    have hcopy : ∃ j ∈ call.selected i.now db, IsCopy (call.input i) db j r := isCopy_of_mem hr rfl
    obtain ⟨j, -, q, -, rfl⟩ := hcopy
    exact ⟨rfl, rfl, rfl⟩
  | redriveJobs o locked =>
    obtain ⟨m, -, hrow⟩ := List.mem_filterMap.mp hr
    obtain ⟨q, -, rfl⟩ := Option.map_eq_some_iff.mp hrow
    exact ⟨rfl, rfl, rfl⟩
  | insertFlowJobs => simp [Statement.ordinary] at hord
  | _ => simp [Statement.adds] at hr

/-- A row after an ordinary statement has the flow columns it had, or has no part in a flow. -/
theorem exec_row (hdb : db.Allowed) (hord : s.ordinary = true) (hexec : s.exec db = .ok db') (hr : r ∈ db'.jobs) :
    (∃ j ∈ db.jobs, r.jobKey = j.jobKey ∧ r.blocked = j.blocked ∧ r.blocking = j.blocking ∧
        r.pendingDependencies = j.pendingDependencies ∧ (j.state = .completed → r.state = .completed)) ∨
      r ∈ s.adds db ∧ r.blocked = false ∧ r.blocking = false ∧ r.pendingDependencies = 0 := by
  cases (s.exec_effect hdb hexec).rows r hr with
  | moved hj hmove =>
    have hwrites : s.writesFlow = false := by
      cases s <;> simp_all [Statement.ordinary, Statement.writesFlow]
    rw [hwrites] at hmove
    obtain ⟨hblocked, hblocking, hpending⟩ := hmove.flowColumns
    exact .inl ⟨_, hj, hmove.jobKey, hblocked, hblocking, hpending, hmove.completed⟩
  | claimed hj hwait _ hset _ =>
    exact .inl ⟨_, hj, by rw [hset]; exact ⟨rfl, rfl, rfl, rfl, fun h => by simp [h] at hwait⟩⟩
  | restored hs => simp [hs, Statement.ordinary] at hord
  | added hadd => exact .inr ⟨hadd, adds_plain hord hexec hadd⟩

/-- The row of a flow's job after an ordinary statement that keeps flows. -/
theorem exec_keeps (hdb : db.Allowed) (hord : s.ordinary = true) (hkeeps : KeepsFlows db s)
    (hexec : s.exec db = .ok db') (hk : k ∈ db.flowKeys) (hj : j ∈ db.jobs) (hkey : j.jobKey = k) :
    ∃ r ∈ db'.jobs, r.jobKey = k ∧ r.blocking = j.blocking ∧ (j.state = .completed → r.state = .completed) := by
  obtain ⟨hfresh, hstay⟩ := hkeeps
  simp only [hexec] at hstay
  obtain ⟨r, hr, hrkey⟩ := List.mem_map.mp (hstay j hj (hkey ▸ hk))
  rcases exec_row hdb hord hexec hr with ⟨i, hi, hri, -, hblocking, -, hcompleted⟩ | ⟨hadd, -⟩
  · obtain rfl : i = j := hdb.eq_of_jobKey hi hj (hri.symm.trans hrkey)
    exact ⟨r, hr, hrkey.trans hkey, hblocking, hcompleted⟩
  · exact absurd (hrkey.trans hkey ▸ hk) (hfresh r hadd)

theorem exec_parentBlocks (hdb : db.Allowed) (hord : s.ordinary = true) (hkeeps : KeepsFlows db s)
    (hexec : s.exec db = .ok db') (hk : k ∈ db.flowKeys) : parentBlocks db' k = parentBlocks db k := by
  rw [Bool.eq_iff_iff, parentBlocks_iff, parentBlocks_iff]
  constructor
  · rintro ⟨r, hr, hkey, hblocking⟩
    rcases exec_row hdb hord hexec hr with ⟨j, hj, hrj, -, hsame, -⟩ | ⟨-, -, hfalse, -⟩
    · exact ⟨j, hj, hrj.symm.trans hkey, hsame ▸ hblocking⟩
    · simp [hfalse] at hblocking
  · rintro ⟨j, hj, hkey, hblocking⟩
    obtain ⟨r, hr, hrkey, hsame, -⟩ := exec_keeps hdb hord hkeeps hexec hk hj hkey
    exact ⟨r, hr, hrkey, hsame.trans hblocking⟩

theorem exec_dependencies (hdb : db.Allowed) (hord : s.ordinary = true) (hexec : s.exec db = .ok db') :
    db'.dependencies = db.dependencies := by
  have hlinks : s.links = [] := by cases s <;> simp_all [Statement.ordinary, Statement.links]
  rw [(s.exec_frame hdb hexec).2, hlinks]
  simp [insertDependencies]

/-- An ordinary statement that keeps flows keeps the invariant. -/
theorem FlowInv.exec (h : FlowInv db) (hord : s.ordinary = true) (hkeeps : KeepsFlows db s)
    (hexec : s.exec db = .ok db') : FlowInv db' := by
  have hdeps := exec_dependencies h.allowed hord hexec
  have hkeys : db'.flowKeys = db.flowKeys := by rw [Database.flowKeys, Database.flowKeys, hdeps]
  have hopen := openParents_congr hdeps fun k hk => exec_parentBlocks h.allowed hord hkeeps hexec hk
  have hrow := fun r hr => exec_row (r := r) h.allowed hord hexec hr
  refine ⟨(s.exec_effect h.allowed hexec).allowed, hdeps ▸ h.nodup, fun k hk => ?_, fun r hr => ?_, fun r hr => ?_,
    fun r hr hblocking => ?_, fun d hd r hr hkey hblocking => ?_⟩
  · rw [hkeys] at hk
    obtain ⟨j, hj, hkey⟩ := h.present k hk
    obtain ⟨r, hr, hrkey, -⟩ := exec_keeps h.allowed hord hkeeps hexec hk hj hkey
    exact ⟨r, hr, hrkey⟩
  · rw [hopen]
    rcases hrow r hr with ⟨j, hj, hkey, -, -, hpending, -⟩ | ⟨hadd, -, -, hpending⟩
    · rw [hpending, hkey, h.counted j hj]
    · rw [hpending, openParents_zero (hkeeps.1 r hadd)]
  · rcases hrow r hr with ⟨j, hj, -, hblocked, -, hpending, -⟩ | ⟨-, hblocked, -, hpending⟩
    · rw [hblocked, hpending, h.blocked j hj]
    · simp [hblocked, hpending]
  · rw [hdeps]
    rcases hrow r hr with ⟨j, hj, hkey, -, hsame, -⟩ | ⟨-, -, hfalse, -⟩
    · rw [hkey]
      exact h.parent j hj (hsame ▸ hblocking)
    · simp [hfalse] at hblocking
  · rw [hdeps] at hd
    rcases hrow r hr with ⟨j, hj, hrj, -, hsame, -, hcompleted⟩ | ⟨hadd, -⟩
    · exact hcompleted (h.resolved d hd j hj (hrj.symm.trans hkey) (hsame ▸ hblocking))
    · exact absurd (mem_flowKeys.mpr ⟨d, hd, .inr hkey⟩) (hkeeps.1 r hadd)

end Exec

section Resolve

variable {now : Timestamp} {group missed : List JobKey} {ids : List Uuid}

/-- The row a resolver statement leaves for a row. -/
def resolvedRow (now : Timestamp) (group missed : List JobKey) (db : Database) (j : Job) : Job :=
  let counted := if lockedChild group missed db j then unblockSet now (parentsAmong group db j.jobKey) j else j
  if j.jobKey ∈ group then clearSet counted else counted

/-- The table after a resolver statement. -/
theorem resolveParents_ok (h : resolveParents now group missed db = .ok (db', ids)) :
    db'.jobs = db.jobs.map (resolvedRow now group missed db) ∧ db'.dependencies = db.dependencies ∧
      (db.Allowed → db'.Allowed) := by
  simp only [resolveParents] at h
  split at h
  · contradiction
  rename_i mid counted hcount
  obtain ⟨hjobs, -, hdeps, -⟩ := Database.updateWhere_ok hcount
  obtain ⟨hjobs', -, hdeps', -⟩ := Database.updateWhere_ok h
  refine ⟨?_, hdeps'.trans hdeps, fun hdb => ?_⟩
  · rw [hjobs', hjobs, List.map_map]
    refine List.map_congr_left fun j _ => ?_
    have hkey : (if lockedChild group missed db j then unblockSet now (parentsAmong group db j.jobKey) j else j).jobKey =
        j.jobKey := by split <;> rfl
    simp only [Function.comp_apply, resolvedRow, hkey, decide_eq_true_eq]
  · refine Database.updateWhere_allowed clearSet ?_ (fun _ => ⟨rfl, rfl⟩) h
    exact Database.updateWhere_allowed (fun j => unblockSet now (parentsAmong group db j.jobKey) j) hdb
      (fun _ => ⟨rfl, rfl⟩) hcount

@[simp] theorem resolvedRow_jobKey : (resolvedRow now group missed db j).jobKey = j.jobKey := by
  unfold resolvedRow; split <;> split <;> rfl

@[simp] theorem resolvedRow_state : (resolvedRow now group missed db j).state = j.state := by
  unfold resolvedRow; split <;> split <;> rfl

theorem resolvedRow_blocking :
    (resolvedRow now group missed db j).blocking = (j.blocking && decide (j.jobKey ∉ group)) := by
  unfold resolvedRow; split <;> split <;> simp_all [clearSet, unblockSet]

theorem resolvedRow_counts : (resolvedRow now group missed db j).pendingDependencies =
      (if lockedChild group missed db j then j.pendingDependencies - parentsAmong group db j.jobKey
        else j.pendingDependencies) ∧
    (resolvedRow now group missed db j).blocked =
      (if lockedChild group missed db j then decide (0 < j.pendingDependencies - parentsAmong group db j.jobKey)
        else j.blocked) := by
  unfold resolvedRow; split <;> split <;> exact ⟨rfl, rfl⟩

theorem parentBlocks_resolved (hjobs : db'.jobs = db.jobs.map (resolvedRow now group missed db)) (k : JobKey) :
    parentBlocks db' k = (parentBlocks db k && decide (k ∉ group)) := by
  rw [Bool.eq_iff_iff, Bool.and_eq_true, parentBlocks_iff, parentBlocks_iff, hjobs]
  constructor
  · rintro ⟨r, hr, hkey, hblocking⟩
    obtain ⟨j, hj, rfl⟩ := List.mem_map.mp hr
    rw [resolvedRow_jobKey] at hkey
    rw [resolvedRow_blocking, Bool.and_eq_true] at hblocking
    exact ⟨⟨j, hj, hkey, hblocking.1⟩, hkey ▸ hblocking.2⟩
  · rintro ⟨⟨j, hj, hkey, hblocking⟩, hout⟩
    exact ⟨_, List.mem_map_of_mem hj, resolvedRow_jobKey.trans hkey, by
      rw [resolvedRow_blocking, hblocking, hkey]; exact hout⟩

/-- What is taken from a counter is what its open parents lose. -/
theorem openParents_resolved (hjobs : db'.jobs = db.jobs.map (resolvedRow now group missed db))
    (hdeps : db'.dependencies = db.dependencies) (hopen : ∀ k ∈ group, parentBlocks db k = true) (child : JobKey) :
    openParents db child = openParents db' child + parentsAmong group db child := by
  rw [openParents, openParents, parentsAmong, hdeps, List.countP_eq_countP_filter_add db.dependencies
    (fun d => decide (d.child = child) && parentBlocks db d.parent) fun d => decide (d.parent ∉ group),
    List.countP_filter, List.countP_filter]
  congr 1
  · exact List.countP_congr fun d _ => by rw [parentBlocks_resolved hjobs]; simp [and_assoc]
  · refine List.countP_congr fun d _ => ?_
    by_cases hmem : d.parent ∈ group
    · simp [hmem, hopen d.parent hmem]
    · simp [hmem]

/-- A resolver statement that misses no child keeps the invariant. -/
theorem FlowInv.resolve (h : FlowInv db)
    (hlocked : ∀ k ∈ group, ∃ j ∈ db.jobs, j.jobKey = k ∧ j.blocking = true ∧ j.state = .completed)
    (hmissed : ∀ k ∈ missed, parentsAmong group db k = 0)
    (hrun : resolveParents now group missed db = .ok (db', ids)) : FlowInv db' := by
  obtain ⟨hjobs, hdeps, hallowed⟩ := resolveParents_ok hrun
  have hopen : ∀ k ∈ group, parentBlocks db k = true := fun k hk => by
    obtain ⟨j, hj, hkey, hblocking, -⟩ := hlocked k hk
    exact parentBlocks_iff.mpr ⟨j, hj, hkey, hblocking⟩
  have hcount := openParents_resolved hjobs hdeps hopen
  have hkeys : db'.flowKeys = db.flowKeys := by rw [Database.flowKeys, Database.flowKeys, hdeps]
  -- a child of the group is locked: its counter is positive, and it was not missed
  have hchild : ∀ j ∈ db.jobs, lockedChild group missed db j = false → parentsAmong group db j.jobKey = 0 := by
    intro j hj hfree
    by_contra hpositive
    have hpending : 0 < j.pendingDependencies := by
      rw [h.counted j hj, hcount]
      omega
    have hnot : j.jobKey ∉ missed := fun hmem => hpositive (hmissed _ hmem)
    simp [lockedChild, h.blocked j hj, hpending, Nat.pos_of_ne_zero hpositive, hnot] at hfree
  have hrow : ∀ j ∈ db.jobs, (resolvedRow now group missed db j).pendingDependencies =
      j.pendingDependencies - parentsAmong group db j.jobKey := by
    intro j hj
    rw [resolvedRow_counts.1]
    split
    · rfl
    · rename_i hfree
      rw [hchild j hj (Bool.eq_false_iff.mpr hfree), Nat.sub_zero]
  refine ⟨hallowed h.allowed, hdeps ▸ h.nodup, fun k hk => ?_, fun r hr => ?_, fun r hr => ?_,
    fun r hr hblocking => ?_, fun d hd r hr hkey hblocking => ?_⟩
  · obtain ⟨j, hj, hkey⟩ := h.present k (hkeys ▸ hk)
    exact ⟨_, hjobs ▸ List.mem_map_of_mem hj, resolvedRow_jobKey.trans hkey⟩
  all_goals
    rw [hjobs] at hr
    obtain ⟨j, hj, rfl⟩ := List.mem_map.mp hr
  · rw [hrow j hj, resolvedRow_jobKey, h.counted j hj, hcount]
    omega
  · rw [hrow j hj, resolvedRow_counts.2]
    split
    · rfl
    · rename_i hfree
      rw [hchild j hj (Bool.eq_false_iff.mpr hfree), Nat.sub_zero, h.blocked j hj]
  · rw [resolvedRow_blocking, Bool.and_eq_true] at hblocking
    rw [hdeps, resolvedRow_jobKey]
    exact h.parent j hj hblocking.1
  · rw [resolvedRow_jobKey] at hkey
    rw [resolvedRow_state]
    by_cases hmem : j.jobKey ∈ group
    · obtain ⟨i, hi, hik, -, hcompleted⟩ := hlocked _ hmem
      exact h.allowed.eq_of_jobKey hi hj hik ▸ hcompleted
    · exact h.resolved d (hdeps ▸ hd) j hj hkey (by simpa [resolvedRow_blocking, hmem] using hblocking)

end Resolve

section Flow

variable {now : Timestamp} {drawn : String → Uuid} {jobs : List FlowJob} {names : List String} {name : String}

/-- The row of a job of a flow. -/
structure FlowRow (drawn : String → Uuid) (jobs : List FlowJob) (job : FlowJob) (r : Job) : Prop where
  key : r.jobKey = job.key drawn
  blocked : r.blocked = decide (0 < job.parents.length)
  blocking : r.blocking = isParentRef jobs job.ref
  pending : r.pendingDependencies = job.parents.length

/-- What the inserts of some of a flow's queues leave. -/
structure FlowInserted (drawn : String → Uuid) (jobs : List FlowJob) (names : List String) (db db' : Database) :
    Prop where
  allowed : db.Allowed → db'.Allowed
  dependencies : db'.dependencies = db.dependencies
  old : ∀ j ∈ db.jobs, j ∈ db'.jobs
  rows : ∀ r ∈ db'.jobs, r ∈ db.jobs ∨ ∃ job ∈ jobs, job.name ∈ names ∧ FlowRow drawn jobs job r
  placed : ∀ job ∈ jobs, job.name ∈ names → ∃ r ∈ db'.jobs, FlowRow drawn jobs job r
  fresh : db.Allowed → ∀ job ∈ jobs, job.name ∈ names → ∀ j ∈ db.jobs, j.jobKey ≠ job.key drawn
  distinct : db.Allowed → ∀ n ∈ names, ((jobs.filter (·.name = n)).map (FlowJob.key drawn)).Nodup

theorem flowRow_insertRow {q : Option Queue} {job : FlowJob} :
    FlowRow drawn jobs job (insertRow now job.name q false (job.id drawn) (flowPayload drawn jobs job)) := by
  refine ⟨rfl, ?_, ?_, ?_⟩ <;> simp only [insertRow, flowPayload]
  · split <;> simp_all
  · split <;> simp_all
  · split <;> simp_all

/-- A queue's insert that skips no row. -/
theorem insertFlowJobs_inserted {inserted : List Job}
    (h : insertFlowJobs now name (flowBatch drawn jobs name) db = .ok (db', inserted)) :
    FlowInserted drawn jobs [name] db db' := by
  have hinsert := insertFlowJobs_ok h
  have hlength : inserted.length = (flowBatch drawn jobs name).length := by
    rw [insertFlowJobs, hinsert] at h
    by_contra hne
    simp [hne] at h
  obtain ⟨hjobs, -, hdeps, hallowed, -⟩ := insertJobs_ok hinsert
  have hrows : inserted = (jobs.filter (·.name = name)).map fun job =>
      insertRow now name (db.queue name) false (job.id drawn) (flowPayload drawn jobs job) := by
    have hsub : inserted.Sublist ((flowBatch drawn jobs name).map fun payload =>
        insertRow now name (db.queue name) false payload.2 payload.1) := by
      simp only [insertJobs] at hinsert
      split at hinsert
      · contradiction
      split at hinsert
      · contradiction
      obtain ⟨-, rfl⟩ := Prod.mk.inj (Except.ok.inj hinsert)
      exact insertOrSkip_sublist _ _
    rw [hsub.eq_of_length (by rw [hlength, List.length_map]), flowBatch, List.map_map]
    rfl
  have hmem : ∀ r, r ∈ inserted ↔ ∃ job ∈ jobs, job.name = name ∧
      r = insertRow now name (db.queue name) false (job.id drawn) (flowPayload drawn jobs job) := by
    intro r
    simp only [hrows, List.mem_map, List.mem_filter, decide_eq_true_eq, and_assoc]
    exact exists_congr fun job => and_congr_right fun _ => and_congr_right fun _ => eq_comm
  have hplaced : ∀ job ∈ jobs, job.name = name → ∃ r ∈ inserted, FlowRow drawn jobs job r := by
    rintro job hjob rfl
    exact ⟨_, (hmem _).mpr ⟨job, hjob, rfl, rfl⟩, flowRow_insertRow⟩
  refine ⟨hallowed, hdeps, fun j hj => hjobs ▸ List.mem_append_left _ hj, fun r hr => ?_, fun job hjob hname => ?_,
    fun hdb job hjob hname j hj hkey => ?_, fun hdb n hn => ?_⟩
  · rw [hjobs] at hr
    refine (List.mem_append.mp hr).imp id fun hr => ?_
    obtain ⟨job, hjob, rfl, rfl⟩ := (hmem r).mp hr
    exact ⟨job, hjob, List.mem_singleton_self _, flowRow_insertRow⟩
  · obtain ⟨r, hr, hrow⟩ := hplaced job hjob (List.mem_singleton.mp hname)
    exact ⟨r, hjobs ▸ List.mem_append_right _ hr, hrow⟩
  · obtain ⟨r, hr, hrow⟩ := hplaced job hjob (List.mem_singleton.mp hname)
    have hnodup := (hallowed hdb).consistent.nodup clashes_self
    rw [hjobs] at hnodup
    have heq : j = r := (hallowed hdb).eq_of_jobKey (hjobs ▸ List.mem_append_left _ hj)
      (hjobs ▸ List.mem_append_right _ hr) (hkey.trans hrow.key.symm)
    exact (List.nodup_append.mp hnodup).2.2 j hj r hr heq
  · obtain rfl := List.mem_singleton.mp hn
    have hkeys : inserted.map Job.jobKey = (jobs.filter (·.name = n)).map (FlowJob.key drawn) := by
      rw [hrows, List.map_map]
      refine List.map_congr_left fun job hjob => ?_
      obtain ⟨-, hname⟩ := List.mem_filter.mp hjob
      exact Prod.ext (of_decide_eq_true hname).symm rfl
    rw [← hkeys]
    have hnodup := (hallowed hdb).consistent.nodup clashes_self
    rw [hjobs] at hnodup
    refine List.Nodup.map_on (fun a ha b hb hkey => ?_) (List.nodup_append.mp hnodup).2.1
    exact (hallowed hdb).eq_of_jobKey (hjobs ▸ List.mem_append_right _ ha) (hjobs ▸ List.mem_append_right _ hb) hkey

/-- The inserts of a flow, over its queues. -/
theorem insertFlowQueues_inserted (h : insertFlowQueues now drawn jobs names db = .ok db') :
    FlowInserted drawn jobs names db db' := by
  induction names generalizing db with
  | nil =>
    obtain rfl := Except.ok.inj h
    exact ⟨id, rfl, fun _ => id, fun _ => .inl, by simp, by simp, by simp⟩
  | cons name rest ih =>
    simp only [insertFlowQueues] at h
    split at h
    · contradiction
    rename_i mid inserted hinsert
    have hfirst := insertFlowJobs_inserted hinsert
    have hrest := ih h
    refine ⟨fun hdb => hrest.allowed (hfirst.allowed hdb), hrest.dependencies.trans hfirst.dependencies,
      fun j hj => hrest.old j (hfirst.old j hj), fun r hr => ?_, fun job hjob hname => ?_,
      fun hdb job hjob hname j hj => ?_, fun hdb n hn => ?_⟩
    · rcases hrest.rows r hr with hr | ⟨job, hjob, hname, hrow⟩
      · refine (hfirst.rows r hr).imp id fun ⟨job, hjob, hname, hrow⟩ => ⟨job, hjob, ?_, hrow⟩
        rw [List.mem_singleton.mp hname]
        exact List.mem_cons_self
      · exact .inr ⟨job, hjob, List.mem_cons_of_mem _ hname, hrow⟩
    · rcases List.mem_cons.mp hname with hname | hname
      · obtain ⟨r, hr, hrow⟩ := hfirst.placed job hjob (List.mem_singleton.mpr hname)
        exact ⟨r, hrest.old r hr, hrow⟩
      · exact hrest.placed job hjob hname
    · rcases List.mem_cons.mp hname with hname | hname
      · exact hfirst.fresh hdb job hjob (List.mem_singleton.mpr hname) j hj
      · exact hrest.fresh (hfirst.allowed hdb) job hjob hname j (hfirst.old j hj)
    · rcases List.mem_cons.mp hn with hn | hn
      · exact hfirst.distinct hdb n (List.mem_singleton.mpr hn)
      · exact hrest.distinct (hfirst.allowed hdb) n hn

theorem mem_flowQueues {job : FlowJob} (hjob : job ∈ jobs) : job.name ∈ flowQueues jobs := by
  simpa [flowQueues] using ⟨job, hjob, rfl⟩

/-- The jobs of a flow by their refs. -/
theorem refToJob_mem {ref : String} {job : FlowJob} (h : refToJob jobs ref = some job) : job ∈ jobs ∧ job.ref = ref :=
  ⟨List.mem_of_find?_eq_some h, by simpa using List.find?_some h⟩

theorem refToJob_isSome (hflow : FlowJobs jobs) {job : FlowJob} (hjob : job ∈ jobs) {ref : String}
    (href : ref ∈ job.parents) : ∃ parent, refToJob jobs ref = some parent := by
  obtain ⟨parent, hparent, hpref⟩ := List.mem_map.mp (hflow.closed job hjob ref (List.mem_dedup.mp href))
  exact Option.isSome_iff_exists.mp (List.find?_isSome.mpr ⟨parent, hparent, decide_eq_true hpref⟩)

/-- The dependency rows of one job. -/
def dependenciesOf (drawn : String → Uuid) (jobs : List FlowJob) (job : FlowJob) : List Dependency :=
  job.parents.filterMap fun ref => (refToJob jobs ref).map fun parent => ⟨job.key drawn, parent.key drawn⟩

theorem mem_dependenciesOf {job : FlowJob} {d : Dependency} : d ∈ dependenciesOf drawn jobs job ↔
    ∃ ref ∈ job.parents, ∃ parent, refToJob jobs ref = some parent ∧ d = ⟨job.key drawn, parent.key drawn⟩ := by
  simp only [dependenciesOf, List.mem_filterMap, Option.map_eq_some_iff]
  exact ⟨fun ⟨ref, hr, p, hp, h⟩ => ⟨ref, hr, p, hp, h.symm⟩, fun ⟨ref, hr, p, hp, h⟩ => ⟨ref, hr, p, hp, h.symm⟩⟩

/-- A job has one dependency row for each distinct parent. -/
theorem dependenciesOf_length (hflow : FlowJobs jobs) {job : FlowJob} (hjob : job ∈ jobs) :
    (dependenciesOf drawn jobs job).length = job.parents.length := by
  rw [dependenciesOf, List.length_filterMap_eq_countP, List.countP_eq_length]
  intro ref href
  obtain ⟨parent, hparent⟩ := refToJob_isSome hflow hjob href
  simp [hparent]

theorem dependenciesOf_nodup (hinj : ∀ a ∈ jobs, ∀ b ∈ jobs, a.key drawn = b.key drawn → a = b) (job : FlowJob) :
    (dependenciesOf drawn jobs job).Nodup := by
  refine List.Nodup.filterMap (fun a b d ha hb => ?_) (List.nodup_dedup _)
  obtain ⟨p, hp, rfl⟩ := Option.map_eq_some_iff.mp ha
  obtain ⟨q, hq, hqd⟩ := Option.map_eq_some_iff.mp hb
  have hpq : q = p := hinj q (refToJob_mem hq).1 p (refToJob_mem hp).1 (congrArg Dependency.parent hqd)
  rw [← (refToJob_mem hp).2, ← (refToJob_mem hq).2, hpq]

/-- A flow's dependency rows are distinct. -/
theorem flowDependencies_nodup (hflow : FlowJobs jobs)
    (hinj : ∀ a ∈ jobs, ∀ b ∈ jobs, a.key drawn = b.key drawn → a = b) : (flowDependencies drawn jobs).Nodup := by
  refine List.nodup_flatMap.mpr ⟨fun job _ => dependenciesOf_nodup hinj job, ?_⟩
  refine (List.Nodup.of_map _ hflow.nodup).imp_of_mem fun {a b} ha hb hne d hda hdb => ?_
  obtain ⟨-, -, p, -, rfl⟩ := mem_dependenciesOf.mp hda
  obtain ⟨-, -, q, -, hd⟩ := mem_dependenciesOf.mp hdb
  exact hne (hinj a ha b hb (congrArg Dependency.child hd))

/-- Among a flow's dependency rows those of a job are its own. -/
theorem flowDependencies_count (hflow : FlowJobs jobs)
    (hinj : ∀ a ∈ jobs, ∀ b ∈ jobs, a.key drawn = b.key drawn → a = b) {job : FlowJob} (hjob : job ∈ jobs) :
    (flowDependencies drawn jobs).countP (fun d => decide (d.child = job.key drawn)) = job.parents.length := by
  rw [List.countP_eq_length_filter, ← dependenciesOf_length hflow hjob]
  refine ((List.perm_ext_iff_of_nodup ((flowDependencies_nodup hflow hinj).filter _)
    (dependenciesOf_nodup hinj job)).mpr fun d => ?_).length_eq
  rw [List.mem_filter, flowDependencies, List.mem_flatMap, decide_eq_true_eq]
  constructor
  · rintro ⟨⟨other, hother, hd⟩, hchild⟩
    have hd : d ∈ dependenciesOf drawn jobs other := hd
    obtain ⟨-, -, p, -, rfl⟩ := mem_dependenciesOf.mp hd
    exact hinj other hother job hjob hchild ▸ hd
  · intro hd
    refine ⟨⟨job, hjob, hd⟩, ?_⟩
    obtain ⟨-, -, p, -, rfl⟩ := mem_dependenciesOf.mp hd
    rfl

/-- A flow's dependency rows are between its jobs, and their parents are flagged. -/
theorem mem_flowDependencies {d : Dependency} (hd : d ∈ flowDependencies drawn jobs) :
    ∃ job ∈ jobs, ∃ parent ∈ jobs, d = ⟨job.key drawn, parent.key drawn⟩ ∧ isParentRef jobs parent.ref = true := by
  obtain ⟨job, hjob, hd⟩ := List.mem_flatMap.mp hd
  obtain ⟨ref, href, parent, hparent, rfl⟩ := mem_dependenciesOf.mp hd
  refine ⟨job, hjob, parent, (refToJob_mem hparent).1, rfl, List.any_eq_true.mpr ⟨job, hjob, ?_⟩⟩
  rw [(refToJob_mem hparent).2]
  exact decide_eq_true href

section Inserted

variable {mid : Database} (hin : FlowInserted drawn jobs (flowQueues jobs) db mid)

include hin

/-- The jobs of a flow that went in have different keys. -/
theorem FlowInserted.key_inj (hdb : db.Allowed) : ∀ a ∈ jobs, ∀ b ∈ jobs, a.key drawn = b.key drawn → a = b := by
  intro a ha b hb hkey
  refine List.inj_on_of_nodup_map (hin.distinct hdb a.name (mem_flowQueues ha)) ?_ ?_ hkey
  · exact List.mem_filter.mpr ⟨ha, decide_eq_true rfl⟩
  · exact List.mem_filter.mpr ⟨hb, decide_eq_true (congrArg Prod.fst hkey).symm⟩

/-- They are jobs the tables did not hold. -/
theorem FlowInserted.new_key (hdb : db.Allowed) {job : FlowJob} (hjob : job ∈ jobs) {j : Job} (hj : j ∈ db.jobs) :
    j.jobKey ≠ job.key drawn := hin.fresh hdb job hjob (mem_flowQueues hjob) j hj

/-- The children are new, so none of a flow's dependency rows is there yet. -/
theorem FlowInv.dependencies_flow (h : FlowInv db) (hflow : FlowJobs jobs) :
    (insertDependencies (flowDependencies drawn jobs) mid).dependencies =
      db.dependencies ++ flowDependencies drawn jobs := by
  have hnone : ∀ d ∈ flowDependencies drawn jobs, d ∉ db.dependencies := by
    intro d hd hold
    obtain ⟨job, hjob, parent, -, rfl, -⟩ := mem_flowDependencies hd
    obtain ⟨j, hj, hkey⟩ := h.present _ (mem_flowKeys.mpr ⟨_, hold, .inl rfl⟩)
    exact hin.new_key h.allowed hjob hj hkey
  rw [insertDependencies, hin.dependencies, List.filter_eq_self.mpr fun d hd => decide_eq_true (hnone d hd),
    (flowDependencies_nodup hflow (hin.key_inj h.allowed)).dedup]

/-- A flow adds to the open parents of a job those it gives it. -/
theorem FlowInv.openParents_flow (h : FlowInv db) (hflow : FlowJobs jobs) (child : JobKey) :
    openParents (insertDependencies (flowDependencies drawn jobs) mid) child =
      openParents db child + (flowDependencies drawn jobs).countP (fun d => decide (d.child = child)) := by
  have hold : ∀ k ∈ db.flowKeys, parentBlocks mid k = parentBlocks db k := by
    intro k hk
    obtain ⟨j, hj, rfl⟩ := h.present k hk
    rw [parentBlocks_eq (hin.allowed h.allowed) (hin.old j hj), parentBlocks_eq h.allowed hj]
  rw [openParents, openParents, h.dependencies_flow hin hflow, List.countP_append]
  congr 1
  · exact List.countP_congr fun d hd => by
      rw [show parentBlocks (insertDependencies _ mid) d.parent = parentBlocks mid d.parent from rfl,
        hold d.parent (mem_flowKeys.mpr ⟨d, hd, .inr rfl⟩)]
  · refine List.countP_congr fun d hd => ?_
    obtain ⟨job, hjob, parent, hparent, rfl, hisparent⟩ := mem_flowDependencies hd
    obtain ⟨r, hr, hrow⟩ := hin.placed parent hparent (mem_flowQueues hparent)
    have hblocks : parentBlocks (insertDependencies (flowDependencies drawn jobs) mid) (parent.key drawn) = true :=
      parentBlocks_iff.mpr ⟨r, hr, hrow.key, hrow.blocking.trans hisparent⟩
    simp [hblocks]

end Inserted

/-- A flow keeps the invariant. -/
theorem FlowInv.flow (h : FlowInv db) (hflow : FlowJobs jobs) (hrun : PgBoss.flow now drawn jobs db = .ok db') :
    FlowInv db' := by
  cases hinsert : insertFlowQueues now drawn jobs (flowQueues jobs) db with
  | error e => simp [PgBoss.flow, hinsert, Except.map] at hrun
  | ok mid =>
  obtain rfl : insertDependencies (flowDependencies drawn jobs) mid = db' := by
    simpa [PgBoss.flow, hinsert, Except.map] using hrun
  have hin := insertFlowQueues_inserted hinsert
  have hallowed := hin.allowed h.allowed
  have hinj := hin.key_inj h.allowed
  have hdeps := h.dependencies_flow hin hflow
  refine ⟨⟨hallowed.consistent, hallowed.check⟩, ?_, fun k hk => ?_, fun r hr => ?_, fun r hr => ?_,
    fun r hr hblocking => ?_, fun d hd r hr hkey hblocking => ?_⟩
  · rw [hdeps]
    refine List.nodup_append.mpr ⟨h.nodup, flowDependencies_nodup hflow hinj, fun a ha b hb hab => ?_⟩
    obtain ⟨job, hjob, parent, -, rfl, -⟩ := mem_flowDependencies hb
    obtain ⟨j, hj, hkey⟩ := h.present a.child (mem_flowKeys.mpr ⟨a, ha, .inl rfl⟩)
    exact hin.new_key h.allowed hjob hj (hkey.trans (congrArg Dependency.child hab))
  · obtain ⟨d, hd, hkd⟩ := mem_flowKeys.mp hk
    rw [hdeps] at hd
    rcases List.mem_append.mp hd with hd | hd
    · obtain ⟨j, hj, hkey⟩ := h.present k (mem_flowKeys.mpr ⟨d, hd, hkd⟩)
      exact ⟨j, hin.old j hj, hkey⟩
    · obtain ⟨job, hjob, parent, hparent, rfl, -⟩ := mem_flowDependencies hd
      obtain ⟨r, hr, hrow⟩ := hin.placed job hjob (mem_flowQueues hjob)
      obtain ⟨r', hr', hrow'⟩ := hin.placed parent hparent (mem_flowQueues hparent)
      rcases hkd with rfl | rfl
      · exact ⟨r, hr, hrow.key⟩
      · exact ⟨r', hr', hrow'.key⟩
  · rw [h.openParents_flow hin hflow]
    rcases hin.rows r hr with hr | ⟨job, hjob, -, hrow⟩
    · have hzero : (flowDependencies drawn jobs).countP (fun d => decide (d.child = r.jobKey)) = 0 := by
        refine List.countP_eq_zero.mpr fun d hd hchild => ?_
        obtain ⟨job, hjob, parent, -, rfl, -⟩ := mem_flowDependencies hd
        exact hin.new_key h.allowed hjob hr (of_decide_eq_true hchild).symm
      rw [hzero, h.counted r hr, Nat.add_zero]
    · have hzero : openParents db r.jobKey = 0 := by
        refine openParents_zero fun hk => ?_
        obtain ⟨j, hj, hkey⟩ := h.present _ hk
        exact hin.new_key h.allowed hjob hj (hkey.trans hrow.key)
      rw [hzero, hrow.pending, hrow.key, flowDependencies_count hflow hinj hjob, Nat.zero_add]
  · rcases hin.rows r hr with hr | ⟨job, -, -, hrow⟩
    · exact h.blocked r hr
    · rw [hrow.blocked, hrow.pending]
  · rw [hdeps]
    rcases hin.rows r hr with hr | ⟨job, hjob, -, hrow⟩
    · obtain ⟨d, hd, hkey⟩ := h.parent r hr hblocking
      exact ⟨d, List.mem_append_left _ hd, hkey⟩
    · obtain ⟨child, hchild, href⟩ := List.any_eq_true.mp (hrow.blocking.symm.trans hblocking)
      have hfind : refToJob jobs job.ref = some job := by
        obtain ⟨found, hfound⟩ := refToJob_isSome hflow hchild (of_decide_eq_true href)
        rw [hfound, List.inj_on_of_nodup_map hflow.nodup (refToJob_mem hfound).1 hjob (refToJob_mem hfound).2]
      refine ⟨⟨child.key drawn, job.key drawn⟩, List.mem_append_right _ (List.mem_flatMap.mpr ⟨child, hchild, ?_⟩),
        hrow.key.symm⟩
      exact mem_dependenciesOf.mpr ⟨job.ref, of_decide_eq_true href, job, hfind, rfl⟩
  · rw [hdeps] at hd
    rcases List.mem_append.mp hd with hd | hd
    · obtain ⟨j, hj, hjkey⟩ := h.present d.parent (mem_flowKeys.mpr ⟨d, hd, .inr rfl⟩)
      obtain rfl : j = r := hallowed.eq_of_jobKey (hin.old j hj) hr (hjkey.trans hkey.symm)
      exact h.resolved d hd j hj hjkey hblocking
    · obtain ⟨job, -, parent, hparent, rfl, hisparent⟩ := mem_flowDependencies hd
      obtain ⟨r', hr', hrow⟩ := hin.placed parent hparent (mem_flowQueues hparent)
      obtain rfl : r' = r := hallowed.eq_of_jobKey hr' hr (hrow.key.trans hkey.symm)
      rw [hrow.blocking, hisparent] at hblocking
      contradiction

end Flow

end PgBoss
