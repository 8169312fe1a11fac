import PgBoss.Plans.Lists

/-!
# Paging visits every row once

Each list read orders by columns that tell its rows apart and compares by the same ones, so its pages are its
unpaged read cut up. Where a column is left out of the order, the filter fixes it, and the bound beside a row
comparison is one that the comparison implies. The blocked keys alone may be refused: a flow can give a job the
empty key, and `assertListAfter` takes no empty text.
-/

namespace PgBoss

open Relational Keyset

/-- The tables that are listed, with the constraints they are kept under. `created_on` is `job_now()` at the insert. -/
structure ListedTables where
  jobs : List Job
  queues : List Queue
  dependencies : List Dependency
  schedules : List Schedule
  instances : List InstanceRow
  jobKeys : (jobs.map Job.jobKey).Nodup
  fifoKeys : ∀ j ∈ jobs, keyStrictFifoCheck j = true
  era : ∀ j ∈ jobs, CommonEra j.createdOn
  queueNames : (queues.map Queue.name).Nodup
  queuesNamed : ∀ q ∈ queues, q.name ≠ ""
  dependencyKeys : dependencies.Nodup
  scheduleKeys : (schedules.map fun s => (s.name, s.key)).Nodup
  instanceIds : (instances.map InstanceRow.id).Nodup

section Reads

variable (c : Collation) (t : ListedTables) {size : ℕ} (hsize : 0 < size)

include hsize

theorem findJobs_visitsOnce (contains : Json → Json → Bool) (name : String) (o : FindJobsFilter) :
    VisitsOnce createdKey (findJobsPage contains name o size t.jobs) (o.selects contains name) t.jobs := by
  have hof : ∀ {j}, o.selects contains name j = true → j.name = name := by
    intro j hj
    simp only [FindJobsFilter.selects, Bool.and_eq_true, decide_eq_true_eq] at hj
    exact hj.1.1.1.1
  have hunique : ∀ {a b : Job}, a ∈ t.jobs → b ∈ t.jobs → a.name = b.name → a.id = b.id → a = b :=
    fun ha hb hname hid => List.inj_on_of_nodup_map t.jobKeys ha hb (Prod.ext hname hid)
  refine visitsOnce hsize ?_ ?_ fun last hlast hselects => ?_
  · refine List.Nodup.map_on (fun a ha b hb hkey => ?_) ((List.Nodup.of_map _ t.jobKeys).filter _)
    obtain ⟨ha, hselects⟩ := List.mem_filter.mp ha
    obtain ⟨hb, hselects'⟩ := List.mem_filter.mp hb
    exact hunique ha hb ((hof hselects).trans (hof hselects').symm) (congrArg Prod.snd (toLex.injective hkey))
  · simp [findJobsPage, findJobs]
  · have hfind : (t.jobs.find? fun j => decide (j.name = name) && decide (j.id = last.id)) = some last := by
      cases hfind : t.jobs.find? fun j => decide (j.name = name) && decide (j.id = last.id) with
      | none =>
        have hnot := List.find?_eq_none.mp hfind last hlast
        simp [hof hselects] at hnot
      | some j =>
        have hj := List.find?_some hfind
        simp only [Bool.and_eq_true, decide_eq_true_eq] at hj
        rw [hunique (List.mem_of_find?_eq_some hfind) hlast (hj.1.trans (hof hselects).symm) hj.2]
    simp only [findJobsPage, findJobsAnchor, hfind, Option.map_some, Option.bind_eq_bind, Option.bind_some,
      timestamptz_utcIsoText (t.era last hlast), Option.pure_def, findJobs, Option.all_some]
    congr 2
    refine List.filter_congr fun j _ => ?_
    -- the bound on created_on is one the row comparison implies
    have hbound : toLex (last.createdOn, last.id) < createdKey j → last.createdOn ≤ j.createdOn := fun hlt => by
      rcases Prod.Lex.lt_iff.mp hlt with h | h
      · exact le_of_lt h
      · exact le_of_eq h.1
    rw [Bool.eq_iff_iff]
    simp only [Bool.and_eq_true, decide_eq_true_eq]
    exact and_congr_right fun _ => ⟨And.right, fun hlt => ⟨hbound hlt, hlt⟩⟩

/-- The dependencies on one side of a job, in pages. -/
theorem sideOf_visitsOnce {side other : Dependency → JobKey} (hside : ∀ {d e}, side d = side e → other d = other e → d = e)
    (of : JobKey) (read : Option JobKey → Option (List JobKey))
    (hread : ∀ after, read after = some ((orderLimit (keyOrder fun d : Dependency => jobRefKey c (other d)) size <|
      t.dependencies.filter fun d => decide (side d = of) &&
        after.all fun last => decide (jobRefKey c last < jobRefKey c (other d))).map other)) :
    VisitsOnce (jobRefKey c) read (fun _ => true) ((t.dependencies.filter fun d => side d = of).map other) := by
  have hinj : ∀ {a b : JobKey}, jobRefKey c a = jobRefKey c b → a = b := fun h => by
    have hpair := Prod.mk.inj (toLex.injective h)
    exact Prod.ext (c.injective hpair.1) hpair.2
  have hmap : ∀ (rows : List Dependency), (orderLimit (keyOrder fun d : Dependency => jobRefKey c (other d)) size rows).map other =
      orderLimit (keyOrder (jobRefKey c)) size (rows.map other) := by
    intro rows
    rw [orderLimit, orderLimit, List.map_take]
    rw [List.map_insertionSort (keyOrder fun d : Dependency => jobRefKey c (other d)) (keyOrder (jobRefKey c)) other rows
      fun _ _ _ _ => Iff.rfl]
  refine visitsOnce hsize ?_ ?_ fun last _ _ => ?_
  · rw [List.filter_true, List.map_map]
    refine List.Nodup.map_on (fun a ha b hb hkey => ?_) (t.dependencyKeys.filter _)
    have ha := (List.mem_filter.mp ha).2
    have hb := (List.mem_filter.mp hb).2
    rw [decide_eq_true_eq] at ha hb
    exact hside (ha.trans hb.symm) (hinj hkey)
  · simp [hread, hmap]
  · rw [hread, hmap]
    congr 2
    rw [List.filter_map, ← List.filter_filter]
    simp only [Option.all_some, Function.comp_def, Bool.true_and]
    rw [List.filter_filter, List.filter_filter]
    simp only [Bool.and_comm]

omit hsize in
/-- A job that blocks a key has one. -/
theorem blocksKey_key {name : String} {j : Job} (hj : j ∈ t.jobs) (hblocks : blocksKey name j = true) :
    ∃ key, j.singletonKey = some key := by
  simp only [blocksKey, Bool.and_eq_true, decide_eq_true_eq] at hblocks
  have hcheck := t.fifoKeys j hj
  rw [keyStrictFifoCheck, hblocks.2] at hcheck
  cases h : j.singletonKey with
  | none => simp [h] at hcheck
  | some key => exact ⟨key, rfl⟩

/-- The keys that `getBlockedKeys` is for. -/
def blockedKeys (name : String) (jobs : List Job) : List (Option String) :=
  ((jobs.filter (blocksKey name)).map Job.singletonKey).dedup

omit hsize in
/-- The comparison with a key picks the blocked keys that come after it. -/
theorem getBlockedKeys_past {name : String} {last : Option String} (hlast : last ∈ blockedKeys name t.jobs) :
    getBlockedKeys c name (some last) size t.jobs = orderLimit (keyOrder (nullsLast c)) size
      ((blockedKeys name t.jobs).filter fun k => decide (nullsLast c last < nullsLast c k)) := by
  obtain ⟨j, hj, rfl⟩ := List.mem_map.mp (List.mem_dedup.mp hlast)
  obtain ⟨hj, hblocks⟩ := List.mem_filter.mp hj
  obtain ⟨key, hof⟩ := blocksKey_key t hj hblocks
  have hpast : ∀ k ∈ t.jobs, blocksKey name k = true →
      textGreater c k.singletonKey j.singletonKey = decide (nullsLast c j.singletonKey < nullsLast c k.singletonKey) := by
    intro k hk hblocks
    obtain ⟨key', hof'⟩ := blocksKey_key t hk hblocks
    rw [hof, hof']
    have hlt : (nullsLast c (some key) < nullsLast c (some key')) ↔ c.rank key < c.rank key' := WithTop.coe_lt_coe
    simp [textGreater, hlt]
  have hfilter : (t.jobs.filter fun k => blocksKey name k && textGreater c k.singletonKey j.singletonKey).map Job.singletonKey =
      ((t.jobs.filter (blocksKey name)).map Job.singletonKey).filter fun k =>
        decide (nullsLast c j.singletonKey < nullsLast c k) := by
    rw [List.filter_map, List.filter_filter]
    refine congrArg (List.map Job.singletonKey) (List.filter_congr fun k hk => ?_)
    cases hblocks : blocksKey name k with
    | false => simp
    | true => simp [hpast k hk hblocks]
  simp only [getBlockedKeys, blockedKeys, Option.all_some, hfilter, dedup_filter]

/-- The blocked keys are visited where the empty one ends no page. -/
theorem getBlockedKeys_visitsOnce_iff (q : Queue) (hpolicy : q.policy = .keyStrictFifo) :
    VisitsOnce (nullsLast c) (getBlockedKeysPage c q size t.jobs) (fun _ => true) (blockedKeys q.name t.jobs) ↔
      ¬ EndsPage size (unpaged (nullsLast c) (fun _ => true) (blockedKeys q.name t.jobs)) (some "") := by
  have hinj : Function.Injective (nullsLast c) := Option.map_injective c.injective
  have hread : getBlockedKeysPage c q size t.jobs = refusing (fun key => !assertListAfter (some key))
      fun after => some (getBlockedKeys c q.name after size t.jobs) := by
    funext after
    cases after with
    | none => simp [getBlockedKeysPage, refusing, assertListAfter, hpolicy]
    | some key => cases h : assertListAfter (some key) <;> simp [getBlockedKeysPage, refusing, h, hpolicy, guard]
  rw [hread, visitsOnce_refusing hsize]
  · constructor
    · intro h hends
      simpa [assertListAfter] using h _ hends
    · intro h key hends
      have hkey : key ∈ blockedKeys q.name t.jobs := by
        have hmem := (List.perm_insertionSort (keyOrder (nullsLast c)) _).mem_iff.mp hends.mem
        simpa using hmem
      obtain ⟨j, hj, rfl⟩ := List.mem_map.mp (List.mem_dedup.mp hkey)
      obtain ⟨hj, hblocks⟩ := List.mem_filter.mp hj
      obtain ⟨text, hof⟩ := blocksKey_key t hj hblocks
      have htext : text ≠ "" := by
        rintro rfl
        exact h (hof ▸ hends)
      simp [assertListAfter, hof, htext]
  · rw [List.filter_true]
    exact (List.nodup_dedup _).map hinj
  · simp [getBlockedKeys, blockedKeys]
  · intro last hlast _
    simp only [getBlockedKeys_past c t hlast, Bool.true_and]

theorem getQueues_visitsOnce (names : List String) :
    VisitsOnce (fun q : Queue => c.rank q.name) (getQueuesPage c names size t.queues)
      (fun q => names.isEmpty || decide (q.name ∈ names)) t.queues := by
  refine visitsOnce hsize ?_ ?_ fun last hlast _ => ?_
  · have hnodup : (t.queues.map fun q => c.rank q.name).Nodup := by
      simpa [List.map_map, Function.comp_def] using t.queueNames.map c.injective
    exact hnodup.sublist (List.filter_sublist.map _)
  · simp [getQueuesPage, assertListAfter, getQueues, orderedUpTo]
  · simp [getQueuesPage, assertListAfter, t.queuesNamed last hlast, getQueues, orderedUpTo]

omit hsize in
theorem scheduleKey_injective {a b : Schedule} (h : scheduleKey c a = scheduleKey c b) : (a.name, a.key) = (b.name, b.key) := by
  have hpair := Prod.mk.inj (toLex.injective h)
  exact Prod.ext (c.injective hpair.1) (c.injective hpair.2)

theorem getSchedules_visitsOnce :
    VisitsOnce (scheduleKey c) (fun after => some (getSchedules c (some size) after t.schedules)) (fun _ => true) t.schedules := by
  refine visitsOnce hsize ?_ ?_ fun last _ _ => ?_
  · rw [List.filter_true]
    exact List.Nodup.map_on (fun a ha b hb hkey => List.inj_on_of_nodup_map t.scheduleKeys ha hb (scheduleKey_injective c hkey))
      (List.Nodup.of_map _ t.scheduleKeys)
  · simp [getSchedules, orderedUpTo]
  · simp [getSchedules, orderedUpTo]

theorem getSchedulesByQueue_visitsOnce (name : String) :
    VisitsOnce (fun s : Schedule => c.rank s.key)
      (fun after => some (getSchedulesByQueue c name (some size) after t.schedules)) (fun s => decide (s.name = name))
      t.schedules := by
  refine visitsOnce hsize ?_ ?_ fun last _ hlast => ?_
  · refine List.Nodup.map_on (fun a ha b hb hkey => ?_) ((List.Nodup.of_map _ t.scheduleKeys).filter _)
    obtain ⟨ha, hname⟩ := List.mem_filter.mp ha
    obtain ⟨hb, hname'⟩ := List.mem_filter.mp hb
    rw [decide_eq_true_eq] at hname hname'
    exact List.inj_on_of_nodup_map t.scheduleKeys ha hb (Prod.ext (hname.trans hname'.symm) (c.injective hkey))
  · simp [getSchedulesByQueue, orderedUpTo]
  · -- within one queue the pair compares as its key does
    rw [decide_eq_true_eq] at hlast
    simp only [getSchedulesByQueue, orderedUpTo, Option.all_some]
    congr 2
    refine List.filter_congr fun s _ => ?_
    rw [Bool.eq_iff_iff]
    simp only [Bool.and_eq_true, decide_eq_true_eq]
    refine and_congr_right fun hs => ?_
    rw [scheduleKey, scheduleKey, Prod.Lex.lt_iff, hlast, hs]
    simp

theorem getInstances_visitsOnce :
    VisitsOnce startedKey (getInstancesPage size t.instances) (fun _ => true) t.instances := by
  have hunique : ∀ {a b : InstanceRow}, a ∈ t.instances → b ∈ t.instances → a.id = b.id → a = b :=
    fun ha hb hid => List.inj_on_of_nodup_map t.instanceIds ha hb hid
  refine visitsOnce hsize ?_ ?_ fun last hlast _ => ?_
  · rw [List.filter_true]
    exact List.Nodup.map_on (fun a ha b hb hkey => hunique ha hb (congrArg Prod.snd (toLex.injective hkey)))
      (List.Nodup.of_map _ t.instanceIds)
  · simp [getInstancesPage, getInstances]
  · have hfind : (t.instances.find? fun k => decide (k.id = last.id)) = some last := by
      cases hfind : t.instances.find? fun k => decide (k.id = last.id) with
      | none =>
        have hnot := List.find?_eq_none.mp hfind last hlast
        simp at hnot
      | some k =>
        have hk := List.find?_some hfind
        rw [decide_eq_true_eq] at hk
        rw [hunique (List.mem_of_find?_eq_some hfind) hlast hk]
    have hfound : (t.instances.any fun i => decide (i.id = last.id)) = true :=
      List.any_eq_true.mpr ⟨last, hlast, by simp⟩
    simp only [getInstancesPage, Option.map_some, Option.any_some, hfound, Bool.not_true, Bool.and_false, Bool.false_eq_true,
      if_false, getInstances, Option.all_some, hfind, Bool.true_and]
    rfl

/-- Whatever the tables hold, the filters are and the size of a page is: reading a list in pages, each from the last row
of the one before, until one is empty, gives every row it is for once, in the order of the unpaged read. The blocked keys
of a queue are read so exactly where the empty key is not the last of a page. -/
theorem paging_visits_every_row_once :
    (∀ contains name o, VisitsOnce createdKey (findJobsPage contains name o size t.jobs) (o.selects contains name) t.jobs) ∧
      (∀ child, VisitsOnce (jobRefKey c) (fun after => some (getDependencies c child after size t.dependencies)) (fun _ => true)
        ((t.dependencies.filter fun d => d.child = child).map Dependency.parent)) ∧
      (∀ parent, VisitsOnce (jobRefKey c) (fun after => some (getDependents c parent after size t.dependencies)) (fun _ => true)
        ((t.dependencies.filter fun d => d.parent = parent).map Dependency.child)) ∧
      (∀ q : Queue, q.policy = .keyStrictFifo →
        (VisitsOnce (nullsLast c) (getBlockedKeysPage c q size t.jobs) (fun _ => true) (blockedKeys q.name t.jobs) ↔
          ¬ EndsPage size (unpaged (nullsLast c) (fun _ => true) (blockedKeys q.name t.jobs)) (some ""))) ∧
      (∀ names, VisitsOnce (fun q : Queue => c.rank q.name) (getQueuesPage c names size t.queues)
        (fun q => names.isEmpty || decide (q.name ∈ names)) t.queues) ∧
      VisitsOnce (scheduleKey c) (fun after => some (getSchedules c (some size) after t.schedules)) (fun _ => true)
        t.schedules ∧
      (∀ name, VisitsOnce (fun s : Schedule => c.rank s.key)
        (fun after => some (getSchedulesByQueue c name (some size) after t.schedules)) (fun s => decide (s.name = name))
        t.schedules) ∧
      VisitsOnce startedKey (getInstancesPage size t.instances) (fun _ => true) t.instances :=
  ⟨findJobs_visitsOnce t hsize,
    fun child => sideOf_visitsOnce c t hsize
      (fun {d e} hchild hparent => by cases d; cases e; simp_all) child _ fun _ => rfl,
    fun parent => sideOf_visitsOnce c t hsize
      (fun {d e} hparent hchild => by cases d; cases e; simp_all) parent _ fun _ => rfl,
    getBlockedKeys_visitsOnce_iff c t hsize, getQueues_visitsOnce c t hsize, getSchedules_visitsOnce c t hsize,
    getSchedulesByQueue_visitsOnce c t hsize, getInstances_visitsOnce t hsize⟩

end Reads

/-- Texts by their code points. -/
def codePoints : Collation := ⟨String, inferInstance, id, Function.injective_id⟩

/-- Two jobs of one instant. -/
def tiedJobs : ListedTables where
  jobs := [{ id := 2, name := "q", startAfter := 0, createdOn := 0, keepUntil := 0 },
    { id := 1, name := "q", startAfter := 0, createdOn := 0, keepUntil := 0 }]
  queues := []
  dependencies := []
  schedules := []
  instances := []
  jobKeys := by decide
  fifoKeys := by decide
  era := by simp only [List.mem_cons, List.not_mem_nil, or_false, forall_eq_or_imp, forall_eq, CommonEra]; decide
  queueNames := .nil
  queuesNamed := by simp
  dependencyKeys := .nil
  scheduleKeys := .nil
  instanceIds := .nil

theorem paging_visits_tied_jobs :
    VisitsOnce createdKey (findJobsPage (fun _ _ => false) "q" {} 1 tiedJobs.jobs)
        (FindJobsFilter.selects (fun _ _ => false) "q" {}) tiedJobs.jobs ∧
      (pages (findJobsPage (fun _ _ => false) "q" {} 1 tiedJobs.jobs) 3 none).map (List.map (List.map Job.id)) =
        some [[1], [2]] :=
  ⟨(paging_visits_every_row_once codePoints tiedJobs Nat.one_pos).1 _ _ _, by decide +kernel⟩

/-- A `key_strict_fifo` queue. -/
def keyedQueue : Queue where
  name := "q"
  policy := .keyStrictFifo
  retryLimit := 0
  retryDelay := 0
  retryBackoff := false
  retryDelayMax := none
  expireSeconds := 900
  retentionSeconds := 1209600
  deletionSeconds := 604800
  deadLetter := none
  heartbeatSeconds := none

/-- A failed job under a key. -/
def blockingJob (id : Uuid) (key : String) : Job where
  id := id
  name := "q"
  state := .failed
  singletonKey := some key
  policy := some .keyStrictFifo
  startAfter := 0
  createdOn := 0
  keepUntil := 0

/-- Two blocked keys, one of them empty. -/
def emptyKeyBlocked : ListedTables where
  jobs := [blockingJob 1 "", blockingJob 2 "a"]
  queues := [keyedQueue]
  dependencies := []
  schedules := []
  instances := []
  jobKeys := by decide
  fifoKeys := by decide
  era := by simp only [List.mem_cons, List.not_mem_nil, or_false, forall_eq_or_imp, forall_eq, CommonEra]; decide
  queueNames := by decide
  queuesNamed := by decide
  dependencyKeys := .nil
  scheduleKeys := .nil
  instanceIds := .nil

/-- One key a page: the first page is the empty key, and the page after it is refused. -/
theorem blockedKeys_unread : getBlockedKeysPage codePoints keyedQueue 1 emptyKeyBlocked.jobs none = some [some ""] ∧
    (∀ fuel, pages (getBlockedKeysPage codePoints keyedQueue 1 emptyKeyBlocked.jobs) fuel none = none) ∧
      ¬ VisitsOnce (nullsLast codePoints) (getBlockedKeysPage codePoints keyedQueue 1 emptyKeyBlocked.jobs) (fun _ => true)
        (blockedKeys "q" emptyKeyBlocked.jobs) := by
  have hfirst : getBlockedKeysPage codePoints keyedQueue 1 emptyKeyBlocked.jobs none = some [some ""] := by decide +kernel
  have hrefused : getBlockedKeysPage codePoints keyedQueue 1 emptyKeyBlocked.jobs (some (some "")) = none := by decide +kernel
  have hnever : ∀ fuel, pages (getBlockedKeysPage codePoints keyedQueue 1 emptyKeyBlocked.jobs) fuel none = none := by
    rintro (_ | _ | fuel)
    · rfl
    · simp [pages, hfirst]
    · simp [pages, hfirst, hrefused]
  refine ⟨hfirst, hnever, ?_⟩
  rintro ⟨result, hresult, -⟩
  simpa [hnever] using hresult _ (Nat.lt_succ_self _)

end PgBoss
