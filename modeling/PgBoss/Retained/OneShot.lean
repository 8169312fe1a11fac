import PgBoss.Plans.Walk

/-!
# A walk is one statement in batches

A batch covers the rows of the queue whose ids are past the cursor and up to the edge, whichever way
the backend bounds it, and the dependency cleanup finds within those bounds every job it could miss.
So the two loops are walks by key, over the jobs of a queue by their id and over its dependency rows
by the id on one side, where one id may be in any number of rows. They end, each row they take is in
one batch, and what they take and report is what one statement over the whole table would.
-/

namespace PgBoss

/-- The form of the bound on a backend. -/
def WalkBackend.bound : WalkBackend → Keyset.Bound
  | postgres => .range
  | cockroachdb => .list

section Bounds

variable {o : WalkBatchOptions}

/-- The bound of the code, on the keys past the cursor, is that of a walk by key. -/
theorem walkBatchBound_eq (o : WalkBatchOptions) (keys : List Uuid) (id : Uuid) :
    walkBatchBound o (keys.filter (Keyset.past o.after)) id = o.backend.bound.covers o.batchSize o.after keys id := by
  rw [walkBatchBound]
  cases o.backend with
  | cockroachdb => rfl
  | postgres =>
    have hedge : o.edge (keys.filter (Keyset.past o.after)) = Keyset.edge o.batchSize o.after keys := rfl
    simp only [WalkBackend.bound, Keyset.Bound.covers, hedge]
    cases Keyset.edge o.batchSize o.after keys with
    | none => exact decide_eq_true (Fin.le_last id)
    | some e => rfl

theorem jobKeys_eq (o : WalkBatchOptions) (name : String) (jobs : List Job) :
    o.jobKeys name jobs =
      (Keyset.keys (fun j : Job => decide (j.name = name)) Job.id jobs).filter (Keyset.past o.after) := by
  rw [WalkBatchOptions.jobKeys, Keyset.keys, List.filter_map, List.filter_filter]
  exact congrArg (List.map Job.id) (List.filter_congr fun j _ => Bool.and_comm _ _)

theorem dependencyKeys_eq (o : WalkBatchOptions) (name : String) (side : DependencySide)
    (dependencies : List Dependency) :
    o.dependencyKeys name side dependencies = (Keyset.keys (fun d => decide ((side.job d).1 = name))
      (fun d => (side.job d).2) dependencies).filter (Keyset.past o.after) := by
  rw [WalkBatchOptions.dependencyKeys, Keyset.keys, List.filter_map, List.filter_filter]
  exact congrArg (List.map fun d => (side.job d).2) (List.filter_congr fun d _ => Bool.and_comm _ _)

end Bounds

section Jobs

variable {name : String} {counts : WalkCounts}

/-- The batch a walk by key takes from the jobs of the queue. -/
abbrev jobBatch (name : String) (predicate : Job → Bool) (o : WalkBatchOptions) (jobs : List Job) :
    Keyset.Batch Job :=
  Keyset.batch (fun j : Job => decide (j.name = name)) Job.id o.backend.bound o.batchSize predicate o.after jobs

/-- The counts a batch reports. -/
def batchRow (name : String) (counts : WalkCounts) (b : Keyset.Batch Job) : WalkRow where
  walkCursor := none
  deleted := b.removed.length
  deletedRetained := b.removed.countP (finishedBy name counts.retainedOn)
  retained := b.range.countP (finishedBy name counts.retainedBefore) -
    b.removed.countP (finishedBy name counts.retainedBefore)

theorem range_eq (o : WalkBatchOptions) (name : String) (jobs : List Job) :
    o.range name jobs =
      Keyset.inBatch (fun j : Job => decide (j.name = name)) Job.id o.backend.bound o.batchSize o.after jobs := by
  funext j
  rw [WalkBatchOptions.range, jobKeys_eq, walkBatchBound_eq]
  rfl

/-- `deleteJobsBatch` is a batch of a walk by key. -/
theorem deleteWalkBatch_eq (name : String) (counts : WalkCounts) (predicate : Job → Bool) (o : WalkBatchOptions)
    (jobs : List Job) :
    deleteWalkBatch name counts predicate o jobs =
      (Keyset.left (fun j : Job => decide (j.name = name)) Job.id o.backend.bound o.batchSize predicate o.after jobs,
        (jobBatch name predicate o jobs).removed,
        { batchRow name counts (jobBatch name predicate o jobs) with
          walkCursor := Keyset.edge o.batchSize o.after
            (Keyset.keys (fun j : Job => decide (j.name = name)) Job.id jobs) }) := by
  have hremoved : (jobs.filter fun j => o.range name jobs j && predicate j) = (jobBatch name predicate o jobs).removed := by
    simp only [Keyset.batch, List.filter_filter, range_eq]
    exact List.filter_congr fun j _ => Bool.and_comm _ _
  have hrange : (jobs.countP fun j => o.range name jobs j && finishedBy name counts.retainedBefore j) =
      (jobBatch name predicate o jobs).range.countP (finishedBy name counts.retainedBefore) := by
    simp only [Keyset.batch, List.countP_filter, range_eq]
    exact List.countP_congr fun j _ => by rw [Bool.and_comm]
  simp only [deleteWalkBatch, hremoved, hrange, batchRow]
  rw [range_eq, jobKeys_eq]
  rfl

/-- The rows of the batches of a walk, totalled. -/
def tallied (name : String) (counts : WalkCounts) (tally : WalkTally) (batches : List (Keyset.Batch Job)) : WalkTally :=
  batches.foldl (fun tally b => tally.add (batchRow name counts b)) tally

/-- The loop is a walk by key. -/
theorem walkJobs_eq (fuel : ℕ) (predicate : ℕ → Job → Bool) (o : WalkBatchOptions) (jobs : List Job)
    (tally : WalkTally) :
    walkJobs name counts fuel predicate o jobs tally =
      (Keyset.walk (fun j : Job => decide (j.name = name)) Job.id o.backend.bound o.batchSize fuel predicate o.after
        jobs).map fun out => ⟨out.2, tallied name counts tally out.1, out.1.map Keyset.Batch.removed⟩ := by
  induction fuel generalizing predicate o jobs tally with
  | zero => rfl
  | succ fuel ih =>
    simp only [walkJobs, Keyset.walk, deleteWalkBatch_eq]
    cases Keyset.edge o.batchSize o.after (Keyset.keys (fun j : Job => decide (j.name = name)) Job.id jobs) with
    | none => rfl
    | some e =>
      simp only [ih, Option.map_map]
      rfl

/-- The totals of a walk are those of the rows its batches covered and removed. -/
theorem tallied_eq (tally : WalkTally) {batches : List (Keyset.Batch Job)}
    (hsub : ∀ b ∈ batches, b.removed.Sublist b.range) :
    (tallied name counts tally batches).deleted = tally.deleted + (batches.flatMap Keyset.Batch.removed).length ∧
    (tallied name counts tally batches).deletedRetained = tally.deletedRetained +
      (batches.flatMap Keyset.Batch.removed).countP (finishedBy name counts.retainedOn) ∧
    (tallied name counts tally batches).retained +
        (batches.flatMap Keyset.Batch.removed).countP (finishedBy name counts.retainedBefore) =
      tally.retained + (batches.flatMap Keyset.Batch.range).countP (finishedBy name counts.retainedBefore) := by
  induction batches generalizing tally with
  | nil => exact ⟨rfl, rfl, rfl⟩
  | cons b rest ih =>
    obtain ⟨hdeleted, hheld, hkept⟩ := ih (tally.add (batchRow name counts b))
      fun b' hb' => hsub b' (List.mem_cons_of_mem _ hb')
    have hle : b.removed.countP (finishedBy name counts.retainedBefore) ≤ b.range.countP (finishedBy name counts.retainedBefore) :=
      (hsub b List.mem_cons_self).countP_le
    simp only [tallied, List.foldl_cons, List.flatMap_cons, List.length_append, List.countP_append] at *
    simp only [WalkTally.add, batchRow] at hdeleted hheld hkept ⊢
    omega

/-- What one DELETE of the queue's jobs that `removes` selects leaves and would report, and that
the batches deleted each of them once. -/
structure WalkResult.OneShot (name : String) (counts : WalkCounts) (removes : Job → Bool) (jobs : List Job)
    (result : WalkResult) : Prop where
  left : result.jobs = jobs.filter fun j => !(decide (j.name = name) && removes j)
  batches : result.batches.flatten.Perm (jobs.filter fun j => decide (j.name = name) && removes j)
  deleted : result.tally.deleted = jobs.countP fun j => decide (j.name = name) && removes j
  deletedRetained : result.tally.deletedRetained =
    jobs.countP fun j => removes j && finishedBy name counts.retainedOn j
  retained : result.tally.retained = jobs.countP fun j => !removes j && finishedBy name counts.retainedBefore j

theorem name_of_finishedBy {t : Option Int} {j : Job} (h : finishedBy name t j = true) : j.name = name := by
  simp only [finishedBy, Bool.and_eq_true, decide_eq_true_eq] at h
  exact h.1.1

/-- Counting finished jobs of the queue needs no second look at the name. -/
theorem countP_finishedBy (t : Option Int) (p : Job → Bool) (jobs : List Job) :
    (jobs.filter fun j => decide (j.name = name) && p j).countP (finishedBy name t) =
      jobs.countP fun j => p j && finishedBy name t j := by
  rw [List.countP_filter]
  refine List.countP_congr fun j _ => ?_
  cases hfinished : finishedBy name t j with
  | false => simp
  | true => simp [name_of_finishedBy hfinished]

/-- A walk over the jobs of a queue ends, with the same result on either backend. It removes and
reports what the predicate says of each row when the row's batch runs. -/
theorem walkJobs_ends (jobs : List Job) (name : String) (counts : WalkCounts) (predicate : ℕ → Job → Bool)
    {batchSize : ℕ} (hsize : 0 < batchSize) :
    ∃ (result : WalkResult) (removes : Job → Bool), (∀ j, ∃ n, removes j = predicate n j) ∧
      (∀ backend fuel, (jobs.countP fun j => decide (j.name = name)) < fuel →
        walkJobs name counts fuel predicate { batchSize, backend } jobs {} = some result) ∧
      result.OneShot name counts removes jobs := by
  obtain ⟨out, removes, hwalk, hwalked⟩ := Keyset.walk_ends (fun j : Job => decide (j.name = name)) Job.id .range
    hsize (jobs.countP fun j => decide (j.name = name)) predicate none jobs
    (by simp [Keyset.past])
  obtain ⟨hdeleted, hheld, hkept⟩ := @tallied_eq name counts {} _ hwalked.inRange
  have hremoved : (out.1.flatMap Keyset.Batch.removed).Perm
      (jobs.filter fun j => decide (j.name = name) && removes j) := by
    simpa [Keyset.past] using hwalked.removed
  have hrange : (out.1.flatMap Keyset.Batch.range).Perm (jobs.filter fun j => decide (j.name = name) && true) := by
    simpa [Keyset.past] using hwalked.range
  refine ⟨⟨out.2, tallied name counts {} out.1, out.1.map Keyset.Batch.removed⟩, removes, hwalked.asked,
    fun backend fuel hfuel => ?_, ?_, ?_, ?_, ?_, ?_⟩
  · rw [walkJobs_eq, Keyset.walk_form _ .range hsize, hwalk fuel hfuel]
    rfl
  · simpa [Keyset.past] using hwalked.rest
  · rw [List.flatMap_def] at hremoved
    exact hremoved
  · simp only [hdeleted, Nat.zero_add]
    rw [hremoved.length_eq, List.countP_eq_length_filter]
  · simp only [hheld, Nat.zero_add]
    rw [hremoved.countP_eq, countP_finishedBy]
  · rw [hremoved.countP_eq, hrange.countP_eq, countP_finishedBy, countP_finishedBy] at hkept
    have hsplit := @countP_eq_and_add jobs (finishedBy name counts.retainedBefore) removes
    have hcomm : ∀ p q : Job → Bool, (jobs.countP fun j => p j && q j) = jobs.countP fun j => q j && p j :=
      fun p q => List.countP_congr fun j _ => by rw [Bool.and_comm]
    rw [hcomm _ removes, hcomm _ fun j => !removes j] at hsplit
    simp only [Bool.true_and, Nat.zero_add] at hkept
    change (tallied name counts {} out.1).retained + _ = jobs.countP (finishedBy name counts.retainedBefore) at hkept
    change (tallied name counts {} out.1).retained = _
    omega

/-- A batch is the same on either backend. -/
theorem deleteWalkBatch_backend (backend backend' : WalkBackend) {batchSize : ℕ} (hsize : 0 < batchSize)
    (predicate : Job → Bool) (after : Option Uuid) (jobs : List Job) :
    deleteWalkBatch name counts predicate ⟨after, batchSize, backend⟩ jobs =
      deleteWalkBatch name counts predicate ⟨after, batchSize, backend'⟩ jobs := by
  obtain ⟨hbatch, hleft⟩ := Keyset.batch_form (fun j : Job => decide (j.name = name)) Job.id
    backend.bound backend'.bound hsize predicate after jobs
  simp only [deleteWalkBatch_eq, jobBatch, hbatch, hleft]

/-- With the predicates of the code, on Postgres, it is the batch the operations on the count take. -/
theorem deleteWalkBatch_kind (now : Timestamp) (kind : WalkDelete) (retainedOn retainedBefore : Option Int)
    (after : Option Uuid) (batchSize : ℕ) (db : Database) :
    deleteJobsBatch now name kind after batchSize db = .ok ({ db with jobs := (deleteWalkBatch name
        ⟨retainedOn, retainedBefore⟩ (kind.predicate now) ⟨after, batchSize, .postgres⟩ db.jobs).1 },
      (deleteWalkBatch name ⟨retainedOn, retainedBefore⟩ (kind.predicate now) ⟨after, batchSize, .postgres⟩
        db.jobs).2.1.map Job.id) ∧
    walkRow now name kind retainedOn retainedBefore after batchSize db = (deleteWalkBatch name
      ⟨retainedOn, retainedBefore⟩ (kind.predicate now) ⟨after, batchSize, .postgres⟩ db.jobs).2.2 := by
  have hrange : batchRange name after batchSize db =
      WalkBatchOptions.range ⟨after, batchSize, .postgres⟩ name db.jobs := by
    funext j
    have hedge : WalkBatchOptions.edge ⟨after, batchSize, .postgres⟩
        (WalkBatchOptions.jobKeys ⟨after, batchSize, .postgres⟩ name db.jobs) = walkEdge name after batchSize db := rfl
    simp only [batchRange, WalkBatchOptions.range, walkBatchBound, hedge]
    cases walkEdge name after batchSize db with
    | none =>
      have hmax : decide (j.id ≤ maxUuid) = true := decide_eq_true (Fin.le_last _)
      simp only [Option.getD_none, hmax, Option.all_none, WalkBatchOptions.cursor]
    | some e => rfl
  constructor
  · simp only [deleteWalkBatch, ← hrange]
    rfl
  · have hremoved : ∀ p q : Job → Bool, (db.jobs.filter p).filter q = db.jobs.filter fun j => p j && q j := fun p q => by
      rw [List.filter_filter]
      exact List.filter_congr fun j _ => Bool.and_comm _ _
    have hcount : ∀ p q : Job → Bool, (db.jobs.filter p).countP q = db.jobs.countP fun j => p j && q j := fun p q => by
      rw [List.countP_filter]
      exact List.countP_congr fun j _ => by rw [Bool.and_comm]
    simp only [deleteWalkBatch, walkRow, ← hrange, hremoved, hcount (batchRange name after batchSize db)]
    rfl

end Jobs

section Dependencies

variable {name : String} {side : DependencySide}

/-- No job of the queue has the id on that side. -/
def missing (name : String) (side : DependencySide) (jobs : List Job) (d : Dependency) : Bool :=
  !jobs.any fun j => decide (j.name = name) && decide (j.id = (side.job d).2)

/-- The row names a job of the queue on that side that is gone. -/
def orphaned (name : String) (side : DependencySide) (jobs : List Job) (d : Dependency) : Bool :=
  decide ((side.job d).1 = name) && missing name side jobs d

/-- Within its bounds a batch finds the job of a row if there is one. -/
theorem cleanupSelects_eq (o : WalkBatchOptions) (hsize : 0 < o.batchSize) (db : Database) {d : Dependency}
    (hd : d ∈ db.dependencies) :
    cleanupSelects name side o db d = (Keyset.inBatch (fun d => decide ((side.job d).1 = name))
      (fun d => (side.job d).2) o.backend.bound o.batchSize o.after db.dependencies d &&
        missing name side db.jobs d) := by
  have hkeys := dependencyKeys_eq o name side db.dependencies
  have hin : (decide ((side.job d).1 = name) && o.cursor (side.job d).2 &&
      walkBatchBound o (o.dependencyKeys name side db.dependencies) (side.job d).2) =
      Keyset.inBatch (fun d => decide ((side.job d).1 = name)) (fun d => (side.job d).2) o.backend.bound o.batchSize
        o.after db.dependencies d := by
    rw [hkeys, walkBatchBound_eq]
    rfl
  rw [cleanupSelects, hin]
  cases hbatch : Keyset.inBatch (fun d => decide ((side.job d).1 = name)) (fun d => (side.job d).2) o.backend.bound
      o.batchSize o.after db.dependencies d with
  | false => rfl
  | true =>
    rw [Keyset.inBatch_eq hsize hd, Bool.and_eq_true, Bool.and_eq_true] at hbatch
    obtain ⟨⟨-, hcursor⟩, hupTo⟩ := hbatch
    have hedge : (side.job d).2 ≤ (o.edge (o.dependencyKeys name side db.dependencies)).getD maxUuid := by
      rw [hkeys]
      change (Keyset.edge _ _ _).all _ = true at hupTo
      change _ ≤ (Keyset.edge o.batchSize o.after (Keyset.keys (fun d => decide ((side.job d).1 = name))
        (fun d => (side.job d).2) db.dependencies)).getD maxUuid
      revert hupTo
      cases Keyset.edge o.batchSize o.after (Keyset.keys (fun d => decide ((side.job d).1 = name))
        (fun d => (side.job d).2) db.dependencies) with
      | none => exact fun _ => Fin.le_last _
      | some e => exact fun h => of_decide_eq_true h
    have hany : ∀ j : Job, (decide (j.name = name) && o.cursor j.id &&
        decide (j.id ≤ (o.edge (o.dependencyKeys name side db.dependencies)).getD maxUuid) &&
          decide (j.id = (side.job d).2)) = (decide (j.name = name) && decide (j.id = (side.job d).2)) := fun j => by
      by_cases hid : j.id = (side.job d).2
      · have hj : o.cursor (side.job d).2 = true := hcursor
        simp [hid, hj, hedge]
      · simp [hid]
    simp only [missing, hany]

/-- The loop is a walk by key that drops the rows whose job is missing. -/
theorem walkDependencies_eq (fuel : ℕ) (o : WalkBatchOptions) (hsize : 0 < o.batchSize) (db : Database) :
    walkDependencies name side fuel o db =
      (Keyset.walk (fun d => decide ((side.job d).1 = name)) (fun d => (side.job d).2) o.backend.bound o.batchSize fuel
        (fun _ => missing name side db.jobs) o.after db.dependencies).map fun out =>
          ({ db with dependencies := out.2 }, out.1.map Keyset.Batch.removed) := by
  induction fuel generalizing o db with
  | zero => rfl
  | succ fuel ih =>
    have hleft : (db.dependencies.filter fun d => !cleanupSelects name side o db d) =
        Keyset.left (fun d => decide ((side.job d).1 = name)) (fun d => (side.job d).2) o.backend.bound o.batchSize
          (missing name side db.jobs) o.after db.dependencies :=
      List.filter_congr fun d hd => by rw [cleanupSelects_eq o hsize db hd]
    have hremoved : db.dependencies.filter (cleanupSelects name side o db) =
        (Keyset.batch (fun d => decide ((side.job d).1 = name)) (fun d => (side.job d).2) o.backend.bound o.batchSize
          (missing name side db.jobs) o.after db.dependencies).removed := by
      simp only [Keyset.batch, List.filter_filter]
      exact List.filter_congr fun d hd => by rw [cleanupSelects_eq o hsize db hd, Bool.and_comm]
    have hedge : o.edge (o.dependencyKeys name side db.dependencies) = Keyset.edge o.batchSize o.after
        (Keyset.keys (fun d => decide ((side.job d).1 = name)) (fun d => (side.job d).2) db.dependencies) := by
      rw [dependencyKeys_eq]
      rfl
    simp only [walkDependencies, cleanupDependencies, Keyset.walk, hleft, hremoved, hedge]
    cases Keyset.edge o.batchSize o.after
        (Keyset.keys (fun d => decide ((side.job d).1 = name)) (fun d => (side.job d).2) db.dependencies) with
    | none => rfl
    | some e =>
      dsimp only
      rw [ih { o with after := some e } hsize, Option.map_map, Option.map_map]
      rfl

/-- A walk over the dependency rows on one side ends, with the same result on either backend, and
deletes each orphaned row in one batch. -/
theorem walkDependencies_ends (name : String) (side : DependencySide) {batchSize : ℕ} (hsize : 0 < batchSize)
    (db : Database) :
    ∃ batches : List (List Dependency), (∀ backend fuel, db.dependencies.length < fuel →
        walkDependencies name side fuel { batchSize, backend } db = some ({ db with
          dependencies := db.dependencies.filter fun d => !orphaned name side db.jobs d }, batches)) ∧
      batches.flatten.Perm (db.dependencies.filter (orphaned name side db.jobs)) := by
  obtain ⟨out, removes, hwalk, hwalked⟩ := Keyset.walk_ends (fun d => decide ((side.job d).1 = name))
    (fun d => (side.job d).2) .range hsize db.dependencies.length
    (fun _ => missing name side db.jobs) none db.dependencies List.countP_le_length
  have hremoves : ∀ d, removes d = missing name side db.jobs d := fun d => (hwalked.asked d).choose_spec
  have hremoved := hwalked.removed
  rw [List.flatMap_def] at hremoved
  refine ⟨out.1.map Keyset.Batch.removed, fun backend fuel hfuel => ?_, ?_⟩
  · rw [walkDependencies_eq fuel _ hsize, Keyset.walk_form _ .range hsize, hwalk fuel hfuel, Option.map_some,
      hwalked.rest]
    simp [Keyset.past, hremoves, orphaned]
  · refine hremoved.trans (List.Perm.of_eq (List.filter_congr fun d _ => ?_))
    simp [Keyset.past, hremoves, orphaned]

/-- A batch of the cleanup is the same on either backend. -/
theorem cleanupDependencies_backend (backend backend' : WalkBackend) {batchSize : ℕ} (hsize : 0 < batchSize)
    (after : Option Uuid) (db : Database) :
    cleanupDependencies name side ⟨after, batchSize, backend⟩ db =
      cleanupDependencies name side ⟨after, batchSize, backend'⟩ db := by
  have hselects : ∀ d ∈ db.dependencies, cleanupSelects name side ⟨after, batchSize, backend⟩ db d =
      cleanupSelects name side ⟨after, batchSize, backend'⟩ db d := fun d hd => by
    rw [cleanupSelects_eq ⟨after, batchSize, backend⟩ hsize db hd,
      cleanupSelects_eq ⟨after, batchSize, backend'⟩ hsize db hd, Keyset.inBatch_eq hsize hd, Keyset.inBatch_eq hsize hd]
  simp only [cleanupDependencies]
  rw [List.filter_congr hselects, List.filter_congr fun d hd => by rw [hselects d hd]]
  rfl

end Dependencies

/-- Whatever the tables, the queue, the predicate and the batch size, the walk over the queue's jobs
ends, deletes and reports what one statement would, each row in one batch, where a predicate that
changes with the time is asked of each row when the row's batch runs; the cleanup of both sides
deletes each dependency row whose child or parent of the queue is gone, and no other; and a batch is
the same on either backend. -/
theorem walk_oneShot (db : Database) (name : String) (batchSize : ℕ) (hsize : 0 < batchSize) :
    (∀ (counts : WalkCounts) (predicate : ℕ → Job → Bool), ∃ (result : WalkResult) (removes : Job → Bool),
      (∀ j, ∃ n, removes j = predicate n j) ∧ ((∀ n, predicate n = predicate 0) → removes = predicate 0) ∧
      (∀ backend fuel, db.jobs.length < fuel →
        walkJobs name counts fuel predicate { batchSize, backend } db.jobs {} = some result) ∧
      result.OneShot name counts removes db.jobs) ∧
    (∃ batches : List (List Dependency), (∀ backend fuel, db.dependencies.length < fuel →
        cleanupBothSides name fuel { batchSize, backend } db = some ({ db with
          dependencies := db.dependencies.filter fun d =>
            !(orphaned name .child db.jobs d || orphaned name .parent db.jobs d) }, batches)) ∧
      batches.flatten.Perm (db.dependencies.filter fun d =>
        orphaned name .child db.jobs d || orphaned name .parent db.jobs d)) ∧
    (∀ counts predicate after jobs, deleteWalkBatch name counts predicate ⟨after, batchSize, .cockroachdb⟩ jobs =
      deleteWalkBatch name counts predicate ⟨after, batchSize, .postgres⟩ jobs) ∧
    ∀ side after db', cleanupDependencies name side ⟨after, batchSize, .cockroachdb⟩ db' =
      cleanupDependencies name side ⟨after, batchSize, .postgres⟩ db' := by
  refine ⟨fun counts predicate => ?_, ?_, fun counts predicate after jobs =>
    deleteWalkBatch_backend _ _ hsize predicate after jobs, fun side after db' =>
    cleanupDependencies_backend _ _ hsize after db'⟩
  · obtain ⟨result, removes, hasked, hwalk, honce⟩ := walkJobs_ends db.jobs name counts predicate hsize
    refine ⟨result, removes, hasked, fun hsame => funext fun j => ?_, fun backend fuel hfuel =>
      hwalk backend fuel (List.countP_le_length.trans_lt hfuel), honce⟩
    obtain ⟨n, hn⟩ := hasked j
    rw [hn, hsame n]
  · obtain ⟨children, hchildren, hchild⟩ := walkDependencies_ends name .child hsize db
    obtain ⟨parents, hparents, hparent⟩ := walkDependencies_ends name .parent hsize { db with
      dependencies := db.dependencies.filter fun d => !orphaned name .child db.jobs d }
    refine ⟨children ++ parents, fun backend fuel hfuel => ?_, ?_⟩
    · have hfewer := (List.length_filter_le (fun d => !orphaned name .child db.jobs d) db.dependencies).trans_lt hfuel
      rw [cleanupBothSides, hchildren backend fuel hfuel, Option.bind_some, hparents backend fuel hfewer, Option.map_some]
      simp only [List.filter_filter, Bool.not_or, Bool.and_comm]
    · rw [List.flatten_append]
      refine (hchild.append hparent).trans ?_
      simp only [List.filter_filter]
      have hsplit := List.filter_append_perm (orphaned name .child db.jobs)
        (db.dependencies.filter fun d => orphaned name .child db.jobs d || orphaned name .parent db.jobs d)
      simp only [List.filter_filter] at hsplit
      refine List.Perm.trans (List.Perm.of_eq ?_) hsplit
      congr 1 <;> exact List.filter_congr fun d _ => by
        cases orphaned name .child db.jobs d <;> cases orphaned name .parent db.jobs d <;> rfl

section Shared

/-- Three dependency rows of one parent, which is gone; the first child is gone too. -/
def sharedParent : Database where
  jobs := [2, 3].map fun id => { id := id, name := "q", startAfter := 0, createdOn := 0, keepUntil := 0 }
  dependencies := [⟨("q", 1), ("q", 9)⟩, ⟨("q", 2), ("q", 9)⟩, ⟨("q", 3), ("q", 9)⟩]

/-- The theorem where a batch holds one row and an id is in three: every row goes, in some batch. -/
theorem walk_oneShot_shared : ∃ batches : List (List Dependency), (∀ backend fuel, 3 < fuel →
      cleanupBothSides "q" fuel { batchSize := 1, backend } sharedParent =
        some ({ sharedParent with dependencies := [] }, batches)) ∧
    batches.flatten.Perm sharedParent.dependencies := by
  obtain ⟨batches, hwalk, hperm⟩ := (walk_oneShot sharedParent "q" 1 (by decide)).2.1
  have hnone : (sharedParent.dependencies.filter fun d =>
      !(orphaned "q" .child sharedParent.jobs d || orphaned "q" .parent sharedParent.jobs d)) = [] := by decide
  have hall : (sharedParent.dependencies.filter fun d =>
      orphaned "q" .child sharedParent.jobs d || orphaned "q" .parent sharedParent.jobs d) =
      sharedParent.dependencies := by decide
  rw [hall] at hperm
  exact ⟨batches, fun backend fuel hfuel => hnone ▸ hwalk backend fuel hfuel, hperm⟩

end Shared

end PgBoss
