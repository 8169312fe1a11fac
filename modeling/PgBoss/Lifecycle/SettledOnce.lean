import PgBoss.Manager.SettlePerJob
import PgBoss.Lifecycle.Run

/-!
# Each job of a batch is settled once

The three sets `#settlePerJob` makes are a partition of the batch, each job in the set its last
valid entry names. A call settles the rows that are active under the attempts it names, as its
kind says, and no others; what it settled is no longer active, so no later call of the batch
finds it. Over a run the settlements of a job, the times another session ended its claim, and
whether it is still claimed come to one more than the times another session brought the claim
back, which only a restore of the job or a new row under its key can lead to. A call that was cut
short inline, between its delete and its last insert, breaks this: the jobs it had not put back are
gone, and no later call finds them.
-/

namespace PgBoss

open Relational

section Sets

variable {stringify : String → Json}

/-- The last valid entry that names a job. -/
def Batch.lastEntry (b : Batch) (items : List (Option JobResult)) (id : Uuid) : Option JobResult :=
  (items.reduceOption.filter fun item => b.accepts item && decide (item.id = some (uuidText id))).getLast?

/-- How a job goes, and with which output, by its last valid entry. -/
def Batch.verdict (b : Batch) (stringify : String → Json) (items : List (Option JobResult)) (a : JobAttempt) :
    Settlement × Option Json :=
  match b.lastEntry items a.id with
  | some item => (item.settlement.getD .failed, item.output)
  | none => (.failed, some (stringify "no disposition returned by handler"))

/-- The set of a kind. -/
def Partition.of (p : Partition) : Settlement → List (JobAttempt × Option Json)
  | .completed => p.completed
  | .failed => p.failed
  | .deadLettered => p.deadLettered
  | .batchFailed => []

/-- An accepted entry names a settlement of a single job. -/
theorem settlement_of_accepts {b : Batch} {item : JobResult} (h : b.accepts item = true) :
    ∃ k, item.settlement = some k ∧ k ≠ .batchFailed := by
  obtain ⟨-, hsome⟩ := Bool.and_eq_true_iff.mp h
  obtain ⟨k, hk⟩ := Option.isSome_iff_exists.mp hsome
  refine ⟨k, hk, ?_⟩
  rintro rfl
  simp only [JobResult.settlement] at hk
  split_ifs at hk <;> simp at hk

/-- The last valid entry is the first one when no later entry names the job. -/
theorem lastEntry_cons (b : Batch) (item : JobResult) (rest : List (Option JobResult)) (id : Uuid) :
    b.lastEntry (some item :: rest) id = (b.lastEntry rest id).or
      (if b.accepts item && decide (item.id = some (uuidText id)) then some item else none) := by
  simp only [Batch.lastEntry, List.reduceOption_cons_of_some, List.filter_cons]
  split
  · rw [List.getLast?_cons]
    cases (rest.reduceOption.filter fun item => b.accepts item && decide (item.id = some (uuidText id))).getLast? <;> rfl
  · rw [Option.or_none]

/-- The map holds the last valid entry of an id, or what it held before. -/
theorem disposition_eq (b : Batch) (map : String → Option JobResult) (items : List (Option JobResult)) (id : Uuid) :
    b.disposition map items (uuidText id) = (b.lastEntry items id).or (map (uuidText id)) := by
  induction items generalizing map with
  | nil => rfl
  | cons item rest ih =>
    cases item with
    | none => exact ih map
    | some item =>
      rw [Batch.disposition, lastEntry_cons]
      by_cases haccepts : b.accepts item = true
      · rw [if_pos haccepts, ih, Option.or_assoc]
        by_cases hid : item.id = some (uuidText id) <;> simp [haccepts, hid]
      · rw [if_neg haccepts, ih]
        simp [haccepts]

/-- One turn puts the job into the set of its verdict. -/
theorem push_of {b : Batch} (p : Partition) (items : List (Option JobResult)) (a : JobAttempt) {k : Settlement}
    (hk : k ≠ .batchFailed) :
    (p.push stringify a (b.lastEntry items a.id)).of k =
      p.of k ++ if (b.verdict stringify items a).1 = k then [(a, (b.verdict stringify items a).2)] else [] := by
  cases hlast : b.lastEntry items a.id with
  | none => cases k <;> simp_all [Partition.push, Batch.verdict, Partition.of]
  | some item =>
    obtain ⟨-, hmem⟩ := List.mem_filter.mp (List.mem_of_getLast? hlast)
    obtain ⟨kind, hkind, hne⟩ := settlement_of_accepts (Bool.and_eq_true_iff.mp hmem).1
    cases kind <;> cases k <;> simp_all [Partition.push, Batch.verdict, Partition.of]

/-- Each set holds the jobs of its verdict, in the order of the batch. -/
theorem partition_of (b : Batch) (items : List (Option JobResult)) {k : Settlement} (hk : k ≠ .batchFailed) :
    (b.partition stringify items).of k =
      (b.jobs.filter fun a => decide ((b.verdict stringify items a).1 = k)).map
        fun a => (a, (b.verdict stringify items a).2) := by
  have hpush : ∀ (jobs : List JobAttempt) (p : Partition),
      (p.pushAll stringify (b.disposition (fun _ => none) items) jobs).of k = p.of k ++
        (jobs.filter fun a => decide ((b.verdict stringify items a).1 = k)).map
          fun a => (a, (b.verdict stringify items a).2) := by
    intro jobs
    induction jobs with
    | nil => intro p; simp [Partition.pushAll]
    | cons a rest ih =>
      intro p
      rw [Partition.pushAll, ih, disposition_eq, Option.or_none, push_of p items a hk, List.filter_cons]
      by_cases hverdict : (b.verdict stringify items a).1 = k <;> simp [hverdict]
  cases k <;> simpa [Batch.partition, Partition.of] using hpush b.jobs {}

variable (stringify) in
/-- The three sets hold every job of the batch once. -/
theorem partition_perm (b : Batch) (items : List (Option JobResult)) :
    (((b.partition stringify items).completed ++ (b.partition stringify items).failed ++
      (b.partition stringify items).deadLettered).map Prod.fst).Perm b.jobs := by
  have hcount : ∀ (jobs : List JobAttempt) (p : Partition),
      (((p.pushAll stringify (b.disposition (fun _ => none) items) jobs).completed ++
          (p.pushAll stringify (b.disposition (fun _ => none) items) jobs).failed ++
          (p.pushAll stringify (b.disposition (fun _ => none) items) jobs).deadLettered).map Prod.fst).Perm
        ((p.completed ++ p.failed ++ p.deadLettered).map Prod.fst ++ jobs) := by
    intro jobs
    induction jobs with
    | nil => intro p; simp [Partition.pushAll]
    | cons a rest ih =>
      intro p
      refine (ih _).trans ?_
      rw [List.perm_iff_count]
      intro x
      unfold Partition.push
      split <;> simp [List.count_append, List.count_cons] <;> omega
  simpa [Batch.partition] using hcount b.jobs {}

end Sets

/-- How a row settled by a call ends: retried only if it has a retry left. -/
def Settlement.Ends : Settlement → Job → Job → Prop
  | .completed, _, r => r.state = .completed
  | .deadLettered, _, r => r.state = .failed
  | .failed, j, r => r.state = .retry ∧ (j.retryCount : Int) < j.retryLimit ∨ r.state = .failed
  | .batchFailed, j, r => r.state = .retry ∧ (j.retryCount : Int) < j.retryLimit ∨ r.state = .failed

/-- A call leaves every row alone it does not find, and each row it finds is there once, settled
with the output the call carries for it. -/
structure PerJobCall.Settles (c : PerJobCall) (name : String) (db db' : Database) : Prop where
  leaves : ∀ j ∈ db.jobs, c.selects name j = false → j ∈ db'.jobs
  settles : ∀ j ∈ db.jobs, c.selects name j = true →
    ∃ r, (db'.jobs.filter fun k => decide (k.jobKey = j.jobKey)) = [r] ∧
      (∃ output, (j.attempt, output) ∈ c.items ∧ r.output = toJsonText output) ∧ c.kind.Ends j r

section Calls

variable {c : PerJobCall} {name : String} {db db' : Database} {i : ReinsertInput}
  {items : List (JobAttempt × Option Json)} {j : Job}

theorem PerJobCall.selects_iff : c.selects name j = true ↔
    j.name = name ∧ j.state = .active ∧ j.attempt ∈ c.items.map Prod.fst := by
  simp only [PerJobCall.selects, failItemSelects, attemptFence, Bool.and_eq_true, decide_eq_true_eq]

/-- The fence of `fail` says by itself that the job is named and not finished. -/
theorem failSelects_fenced (name : String) (attempts : List JobAttempt) (j : Job) :
    failSelects name (attempts.map JobAttempt.id) (some attempts) j =
      (decide (j.name = name) && attemptFence attempts j) := by
  rw [Bool.eq_iff_iff]
  simp only [failSelects, named, fence, attemptFence, Bool.and_eq_true, decide_eq_true_eq]
  constructor
  · rintro ⟨⟨⟨hname, -⟩, -⟩, hfence⟩
    exact ⟨hname, hfence⟩
  · rintro ⟨hname, hactive, hmem⟩
    exact ⟨⟨⟨hname, List.mem_map.mpr ⟨_, hmem, rfl⟩⟩, by simp [hactive]⟩, hactive, hmem⟩

/-- The item found by id is the one at the row's attempt, ids being distinct. -/
theorem item_of_find {p : JobAttempt × Option Json → Bool} {found : List (JobAttempt × Option Json)}
    (hids : (items.map fun item => item.1.id).Nodup) (hmem : j.attempt ∈ items.map Prod.fst)
    (hfound : ∀ item, item ∈ found ↔ item ∈ items)
    (hp : ∀ item ∈ items, p item = true → item.1.id = j.id) (hself : ∀ o, p (j.attempt, o) = true) :
    (j.attempt, ((found.find? p).map Prod.snd).getD none) ∈ items := by
  obtain ⟨⟨a, output⟩, hitem, rfl⟩ := List.mem_map.mp hmem
  cases hfind : found.find? p with
  | none =>
    exact absurd (hself output) (List.find?_eq_none.mp hfind _ ((hfound _).mpr hitem))
  | some item =>
    have hin := (hfound _).mp (List.mem_of_find?_eq_some hfind)
    have heq : item = (j.attempt, output) :=
      List.inj_on_of_nodup_map hids hin hitem (hp item hin (List.find?_some hfind))
    simpa [heq] using hitem

/-- What a one-statement failure does to the rows it selects. -/
theorem settles_of_conserved {i : FailInput} {select : Job → Bool} (hc : Conserved i select db db')
    (hselect : ∀ j ∈ db.jobs, select j = c.selects name j)
    (houtput : ∀ j ∈ db.jobs, select j = true → (j.attempt, i.output j) ∈ c.items)
    (hkind : ∀ j r, r = retryRow i j ∨ r = failedRow i j → c.kind.Ends j r) : c.Settles name db db' where
  leaves j hj hs := (List.mem_filter.mp (hc.unselected j hj ((hselect j hj).trans hs) ▸ List.mem_singleton_self j)).1
  settles j hj hs := by
    have hs' := (hselect j hj).trans hs
    obtain ⟨r, hr, hrow⟩ := hc.selected j hj hs'
    have hout : r.output = toJsonText (i.output j) := by rcases hrow with rfl | rfl <;> rfl
    exact ⟨r, hr, ⟨_, houtput j hj hs', hout⟩, hkind j r hrow⟩

/-- What the loop does to active rows it is given. -/
theorem settles_of_reinserted (i : ReinsertInput) {jobs : List Job} {n : ℕ} (hdb : db.Allowed)
    (hjobs : jobs = db.jobs.filter (c.selects name)) (hfresh : FreshIds i.toFailInput (c.selects name) db)
    (hrun : reinsertFailedJobs i 0 jobs (db.without jobs) = .ok (db', n))
    (houtput : ∀ j ∈ jobs, (j.attempt, i.output j) ∈ c.items)
    (hkind : ∀ j r, r.state = .retry ∧ canRetry i.toFailInput j = true ∨ r.state = .failed → c.kind.Ends j r) :
    c.Settles name db db' := by
  have hmem : ∀ j, j ∈ jobs ↔ j ∈ db.jobs ∧ c.selects name j = true := fun j => hjobs ▸ List.mem_filter
  have hactive : ∀ j ∈ jobs, j.state = .active := fun j hj => (PerJobCall.selects_iff.mp ((hmem j).mp hj).2).2.1
  have hsel : Selection db jobs := hjobs ▸ selection_filter hdb fun j hj => by
    simp [(PerJobCall.selects_iff.mp hj).2.1]
  have hids : FreshIds i.toFailInput (fun j => decide (j ∈ jobs)) db :=
    ⟨fun j hj hs => hfresh.unused j hj ((hmem j).mp (of_decide_eq_true hs)).2,
      fun j hj hs k hk hks => hfresh.distinct j hj ((hmem j).mp (of_decide_eq_true hs)).2 k hk
        ((hmem k).mp (of_decide_eq_true hks)).2⟩
  obtain ⟨out, hout, hloop⟩ := (reinserting_nil hdb).run hdb hsel hids jobs 0 (by simp) (fun _ hk => hk)
    hsel.nodup (by simp)
  obtain ⟨rfl, -⟩ := Prod.mk.inj (Except.ok.inj (hrun.symm.trans hout))
  have hconserved := hloop.conserved hsel (by simp) (not_keyHeld_of_active hdb hsel hactive)
  refine ⟨fun j hj hs => ?_, fun j hj hs => ?_⟩
  · have hnot : j ∉ jobs := fun hin => by simp [((hmem j).mp hin).2] at hs
    exact (List.mem_filter.mp (hconserved.unselected j hj hnot ▸ List.mem_singleton_self j)).1
  have hjin := (hmem j).mpr ⟨hj, hs⟩
  obtain ⟨r, hr, hrow⟩ := hconserved.selected j hjin
  have hrdb := (List.mem_filter.mp (hr ▸ List.mem_singleton_self r)).1
  refine ⟨r, hr, ?_, hkind j r ?_⟩
  · have houtr : r.output = toJsonText (i.output j) := by rcases hrow with rfl | rfl <;> rfl
    exact ⟨_, houtput j hjin, houtr⟩
  rcases hrow with rfl | rfl
  · -- a retry row is put in for a job that may run again, and nothing else looks like one
    refine .inl ⟨rfl, ?_⟩
    rcases (reinsertFailedJobs_looped hrun).rows _ hrdb with hold | ⟨k, hk, ⟨heq, hcan⟩ | heq⟩ | hcopy
    · have hold := List.mem_filter.mp hold
      have hjj := hdb.eq_of_jobKey hold.1 hj rfl
      have hnot := of_decide_eq_true hold.2
      rw [hjj] at hnot
      exact absurd hjin hnot
    · have hkey : (reinsertRetryRow i j).jobKey = (reinsertRetryRow i k).jobKey := congrArg Job.jobKey heq
      exact hdb.eq_of_jobKey hj (hsel.mem k hk) hkey ▸ hcan
    · exact absurd (congrArg Job.state heq) (by simp [reinsertRetryRow, reinsertFailedRow])
    · obtain ⟨k, -, q, -, heq⟩ := isCopy_of_mem hcopy rfl
      exact absurd (congrArg Job.state heq) (by simp [reinsertRetryRow, deadLetterRow])
  · exact .inr rfl

/-- The rows of the one-statement form are those the call finds. -/
theorem failCall_selects (jobs : List JobAttempt) (output : Option Json) (j : Job) :
    failSelects name (jobs.map JobAttempt.id) (some jobs) j = (PerJobCall.fail jobs output).selects name j := by
  rw [failSelects_fenced, PerJobCall.selects, failItemSelects, PerJobCall.items, List.map_map]
  exact congrArg (fun attempts => decide (j.name = name) && attemptFence attempts j) (List.map_id jobs).symm

/-- The rows of the multi-statement form are those the call finds. -/
theorem failItems_selects (items : List (JobAttempt × Option Json)) (forceTerminal : Bool) (j : Job) :
    failSelects name (items.map fun item => item.1.id) (some (items.map Prod.fst)) j =
      (PerJobCall.failWithOutputs items forceTerminal).selects name j := by
  have hfenced := failSelects_fenced name (items.map Prod.fst) j
  rw [List.map_map] at hfenced
  exact hfenced

theorem one_queue (c : PerJobCall) (name : String) (j : Job) (h : c.selects name j = true) : j.name = name :=
  (PerJobCall.selects_iff.mp h).1

/-- The row of a one-statement failure ends as the loop's does. -/
theorem ends_of_row {i : FailInput} {j r : Job} (h : r = retryRow i j ∨ r = failedRow i j) :
    r.state = .retry ∧ canRetry i j = true ∨ r.state = .failed := by
  rcases h with rfl | rfl
  · rw [retryRow_state]
    by_cases hcan : canRetry i j = true
    · exact .inl ⟨if_pos hcan, hcan⟩
    · exact .inr (if_neg hcan)
  · exact .inr rfl

/-- `#completeWithOutputs` settles the rows it finds. -/
theorem completeWithOutputs_settles (noMultiMutationCte : Bool) (hdb : db.Allowed)
    (hids : (items.map fun item => item.1.id).Nodup)
    (hexec : ((PerJobCall.completeWithOutputs items).statement name noMultiMutationCte i).exec db = .ok db') :
    (PerJobCall.completeWithOutputs items).Settles name db db' := by
  obtain ⟨ids, hrun⟩ := map_fst_ok hexec
  have hallowed := ((Statement.completeJobsWithOutputs i.now name items).exec_effect hdb hexec).allowed
  refine ⟨fun j hj hs => (Database.updateWhere_mem hrun).mpr (.inl ⟨hj, hs⟩), fun j hj hs => ?_⟩
  have hrow : completeSet i.now (outputFor items j) false j ∈ db'.jobs :=
    (Database.updateWhere_mem hrun).mpr (.inr ⟨j, hj, hs, rfl⟩)
  have hone : (db'.jobs.filter fun k => decide (k.jobKey = (completeSet i.now (outputFor items j) false j).jobKey)) =
      [completeSet i.now (outputFor items j) false j] :=
    hallowed.consistent.filter_eq_singleton (fun a b => clashes_of_jobKey) hrow
  refine ⟨completeSet i.now (outputFor items j) false j, hone, ⟨_, ?_, rfl⟩, rfl⟩
  refine item_of_find hids (PerJobCall.selects_iff.mp hs).2.2 (fun _ => Iff.rfl) (fun item _ hitem => ?_)
    fun _ => decide_eq_true rfl
  rw [of_decide_eq_true hitem]
  rfl

/-- `#failWithOutputs` settles the rows it finds, on either path. -/
theorem failWithOutputs_settles (forceTerminal noMultiMutationCte : Bool) (hdb : db.Allowed)
    (hids : (items.map fun item => item.1.id).Nodup)
    (hfresh : FreshIds i.toFailInput ((PerJobCall.failWithOutputs items forceTerminal).selects name) db)
    (hexec : ((PerJobCall.failWithOutputs items forceTerminal).statement name noMultiMutationCte i).exec db = .ok db') :
    (PerJobCall.failWithOutputs items forceTerminal).Settles name db db' := by
  have hends : ∀ (out : Job → Option Json) (j r : Job), r.state = .retry ∧
      canRetry { i.toFailInput with output := out, forceTerminal := forceTerminal } j = true ∨ r.state = .failed →
      (PerJobCall.failWithOutputs items forceTerminal).kind.Ends j r := by
    intro out j r hr
    cases forceTerminal <;> simpa [PerJobCall.kind, Settlement.Ends, canRetry] using hr
  cases noMultiMutationCte with
  | true =>
    obtain ⟨n, hrun⟩ := map_fst_ok hexec
    rw [ReinsertCall.run_eq _ i hdb] at hrun
    have hjobs : (ReinsertCall.failWithOutputs name items forceTerminal).selected i.now db =
        db.jobs.filter ((PerJobCall.failWithOutputs items forceTerminal).selects name) :=
      List.filter_congr fun j _ => failItems_selects items forceTerminal j
    refine settles_of_reinserted ((ReinsertCall.failWithOutputs name items forceTerminal).input i) hdb hjobs
      ⟨hfresh.unused, hfresh.distinct⟩ hrun (fun j hj => ?_) (hends _)
    have hs := (List.mem_filter.mp (hjobs ▸ hj)).2
    exact item_of_find hids (PerJobCall.selects_iff.mp hs).2.2 (fun _ => List.mem_reverse)
      (fun item _ hitem => of_decide_eq_true hitem) fun _ => by simp [Job.attempt]
  | false =>
    obtain ⟨rows, hrun⟩ := map_fst_ok hexec
    rw [FailCall.run_eq] at hrun
    have hname := one_queue (PerJobCall.failWithOutputs items forceTerminal) name
    refine settles_of_conserved (conserved_of_noneDropped hdb hrun (noneDropped_of_one_queue hdb hname))
      (fun _ _ => rfl) (fun j _ hs => ?_) fun j r hrow => hends _ j r (ends_of_row hrow)
    have hmem : j.attempt ∈ items.map Prod.fst :=
      ((@PerJobCall.selects_iff (.failWithOutputs items forceTerminal) name j).mp hs).2.2
    exact item_of_find hids hmem (fun _ => Iff.rfl) (fun item _ hitem => of_decide_eq_true hitem)
      fun _ => decide_eq_true rfl

/-- The batch-wide `fail` settles the rows it finds, on either path. -/
theorem fail_settles {jobs : List JobAttempt} {output : Option Json} (noMultiMutationCte : Bool) (hdb : db.Allowed)
    (hfresh : FreshIds i.toFailInput ((PerJobCall.fail jobs output).selects name) db)
    (hexec : ((PerJobCall.fail jobs output).statement name noMultiMutationCte i).exec db = .ok db') :
    (PerJobCall.fail jobs output).Settles name db db' := by
  have hends : ∀ (out : Job → Option Json) (j r : Job), r.state = .retry ∧
      canRetry { i.toFailInput with output := out, forceTerminal := false } j = true ∨ r.state = .failed →
      (PerJobCall.fail jobs output).kind.Ends j r := by
    intro out j r hr
    simpa [PerJobCall.kind, Settlement.Ends, canRetry] using hr
  have hout : ∀ j, (PerJobCall.fail jobs output).selects name j = true →
      (j.attempt, output) ∈ (PerJobCall.fail jobs output).items := by
    intro j hs
    obtain ⟨item, hitem, hattempt⟩ := List.mem_map.mp (PerJobCall.selects_iff.mp hs).2.2
    obtain ⟨a, ha, rfl⟩ := List.mem_map.mp hitem
    exact List.mem_map.mpr ⟨a, ha, congrArg (fun a => (a, output)) hattempt⟩
  cases noMultiMutationCte with
  | true =>
    obtain ⟨n, hrun⟩ := map_fst_ok hexec
    rw [ReinsertCall.run_eq _ _ hdb] at hrun
    have hjobs : (ReinsertCall.fail name (jobs.map JobAttempt.id) (some jobs)).selected i.now db =
        db.jobs.filter ((PerJobCall.fail jobs output).selects name) :=
      List.filter_congr fun j _ => failCall_selects jobs output j
    exact settles_of_reinserted ((ReinsertCall.fail name (jobs.map JobAttempt.id) (some jobs)).input
      { i with output := fun _ => output }) hdb hjobs ⟨hfresh.unused, hfresh.distinct⟩ hrun
      (fun j hj => hout j (List.mem_filter.mp (hjobs ▸ hj)).2) (hends _)
  | false =>
    obtain ⟨rows, hrun⟩ := map_fst_ok hexec
    rw [FailCall.run_eq] at hrun
    have hselect : ∀ j, (FailCall.fail name (jobs.map JobAttempt.id) (some jobs)).selects i.now db j =
        (PerJobCall.fail jobs output).selects name j := fun j => failCall_selects jobs output j
    have hname : ∀ j, (FailCall.fail name (jobs.map JobAttempt.id) (some jobs)).selects i.now db j = true →
        j.name = name := fun j hj => one_queue _ name j ((hselect j).symm.trans hj)
    exact settles_of_conserved (conserved_of_noneDropped hdb hrun (noneDropped_of_one_queue hdb hname))
      (fun j _ => hselect j) (fun j _ hs => hout j ((hselect j).symm.trans hs))
      fun j r hrow => hends _ j r (ends_of_row hrow)

/-- Every call does what its kind says to the rows it finds. -/
theorem PerJobCall.settles_of_exec (c : PerJobCall) (noMultiMutationCte : Bool) (hdb : db.Allowed)
    (hids : (c.items.map fun item => item.1.id).Nodup) (hfresh : FreshIds i.toFailInput (c.selects name) db)
    (hexec : (c.statement name noMultiMutationCte i).exec db = .ok db') : c.Settles name db db' := by
  cases c with
  | completeWithOutputs items => exact completeWithOutputs_settles noMultiMutationCte hdb hids hexec
  | failWithOutputs items forceTerminal =>
    exact failWithOutputs_settles forceTerminal noMultiMutationCte hdb hids hfresh hexec
  | fail jobs output => exact fail_settles noMultiMutationCte hdb hfresh hexec

/-- A row a completion wrote clashes with nothing the active row did not clash with. -/
theorem completed_clash {now : Timestamp} {output : Option Json} {a b : Job} (hactive : a.state = .active)
    (h : clashes jobIndexes (completeSet now output false a) b = true) : clashes jobIndexes a b = true := by
  rcases jobs_clash_iff.mp h with h | h | h | h | h | h | h | h
  · exact clashes_of_jobKey (primaryKey_clash.mp h)
  · exact absurd (jobI1_clash.mp h).1.1 (by simp [completeSet])
  · exact absurd (jobI2_clash.mp h).1.1 (by simp [completeSet])
  · exact absurd (jobI3_clash.mp h).1.1 (by simp [completeSet])
  · obtain ⟨-, hb, hslot⟩ := jobI4_clash.mp h
    have hclash : jobI4.clash a b = true := jobI4_clash.mpr ⟨by simp [hactive], hb, hslot⟩
    exact jobs_clash_iff.mpr (.inr (.inr (.inr (.inr (.inl hclash)))))
  · exact absurd (jobI6_clash.mp h).1.1 (by simp [completeSet])
  · exact absurd (jobI8_clash.mp h).1.1 (by simp [completeSet])
  · exact absurd (jobI13_clash.mp h).1.1 (by simp [completeSet])

/-- `#completeWithOutputs` raises nothing. -/
theorem completeJobsWithOutputs_total (now : Timestamp) (name : String) (items : List (JobAttempt × Option Json))
    (hdb : db.Allowed) : ∃ db' ids, completeJobsWithOutputs now name items db = .ok (db', ids) := by
  have hactive : ∀ j, (decide (j.name = name) && attemptFence (items.map Prod.fst) j) = true → j.state = .active :=
    fun j hj => (@PerJobCall.selects_iff (.completeWithOutputs items) name j |>.mp hj).2.1
  have hfree : ∀ a ∈ db.jobs, ∀ b ∈ db.jobs, b ≠ a → clashes jobIndexes a b = false := fun a ha b hb hne => by
    by_contra hclash
    exact hne (hdb.consistent.eq_of_clashes hb ha ((clashes_symm _ _ _).trans (by simpa using hclash)))
  refine Database.updateWhere_total (fun j => completeSet now (outputFor items j) false j)
    (fun a ha hs b hb hne => ?_) (fun a ha hs b hb hs' hne => ?_) hdb.nodup
  · by_contra hclash
    have hleft := completed_clash (hactive a hs) (by simpa using hclash)
    rw [hfree a ha b hb hne] at hleft
    contradiction
  · by_contra hclash
    have hleft := completed_clash (hactive a hs) (by simpa using hclash)
    have hboth := completed_clash (hactive b hs') ((clashes_symm _ _ _).trans hleft)
    rw [clashes_symm, hfree a ha b hb hne] at hboth
    contradiction

/-- The loop over active rows raises nothing. -/
theorem reinsert_total (i : ReinsertInput) {select : Job → Bool} (hdb : db.Allowed) (hactive : ActiveOnly select)
    (hfresh : FreshIds i.toFailInput select db) :
    ∃ db' n, reinsertFailedJobs i 0 (db.jobs.filter select) (db.without (db.jobs.filter select)) = .ok (db', n) := by
  have hsel : Selection db (db.jobs.filter select) := selection_filter hdb fun j hj => by simp [hactive j hj]
  have hids : FreshIds i.toFailInput (fun j => decide (j ∈ db.jobs.filter select)) db :=
    ⟨fun j hj hs => hfresh.unused j hj (List.mem_filter.mp (of_decide_eq_true hs)).2,
      fun j hj hs k hk hks => hfresh.distinct j hj (List.mem_filter.mp (of_decide_eq_true hs)).2 k hk
        (List.mem_filter.mp (of_decide_eq_true hks)).2⟩
  obtain ⟨db', hrun, -⟩ := (reinserting_nil hdb).run hdb hsel hids (db.jobs.filter select) 0 (by simp)
    (fun _ hk => hk) hsel.nodup (by simp)
  exact ⟨db', _, hrun⟩

/-- No call raises of itself. -/
theorem PerJobCall.exec_total (c : PerJobCall) (noMultiMutationCte : Bool) (hdb : db.Allowed)
    (hfresh : FreshIds i.toFailInput (c.selects name) db) :
    ∃ db', (c.statement name noMultiMutationCte i).exec db = .ok db' := by
  have hactive : ActiveOnly (c.selects name) := fun j hj => (selects_iff.mp hj).2.1
  have hok : ∀ {α : Type} {r : Reply α} {db' : Database} {a : α}, r = .ok (db', a) → r.map Prod.fst = .ok db' :=
    fun h => by rw [h]; rfl
  cases c with
  | completeWithOutputs items =>
    obtain ⟨db', ids, hrun⟩ := completeJobsWithOutputs_total i.now name items hdb
    exact ⟨db', hok hrun⟩
  | failWithOutputs items forceTerminal =>
    cases noMultiMutationCte with
    | true =>
      obtain ⟨db', n, hrun⟩ := reinsert_total ((ReinsertCall.failWithOutputs name items forceTerminal).input i) hdb
        hactive ⟨hfresh.unused, hfresh.distinct⟩
      have hjobs : (ReinsertCall.failWithOutputs name items forceTerminal).selected i.now db =
          db.jobs.filter ((PerJobCall.failWithOutputs items forceTerminal).selects name) :=
        List.filter_congr fun j _ => failItems_selects items forceTerminal j
      rw [← hjobs, ← ReinsertCall.run_eq _ i hdb] at hrun
      exact ⟨db', hok hrun⟩
    | false =>
      have hids : FreshIds ((FailCall.failWithOutputs name items forceTerminal).input i.toFailInput)
          ((PerJobCall.failWithOutputs items forceTerminal).selects name) db := ⟨hfresh.unused, hfresh.distinct⟩
      obtain ⟨db', rows, hrun⟩ := failJobsBody_total hdb hactive hids
      exact ⟨db', hok hrun⟩
  | fail jobs output =>
    cases noMultiMutationCte with
    | true =>
      obtain ⟨db', n, hrun⟩ := reinsert_total ((ReinsertCall.fail name (jobs.map JobAttempt.id) (some jobs)).input
        { i with output := fun _ => output }) hdb hactive ⟨hfresh.unused, hfresh.distinct⟩
      have hjobs : (ReinsertCall.fail name (jobs.map JobAttempt.id) (some jobs)).selected i.now db =
          db.jobs.filter ((PerJobCall.fail jobs output).selects name) :=
        List.filter_congr fun j _ => failCall_selects jobs output j
      rw [← hjobs] at hrun
      exact ⟨db', hok ((ReinsertCall.run_eq _ _ hdb).trans hrun)⟩
    | false =>
      have hselect : failSelects name (jobs.map JobAttempt.id) (some jobs) = (PerJobCall.fail jobs output).selects name :=
        funext fun j => failCall_selects jobs output j
      have hids : FreshIds { i.toFailInput with output := fun _ => output, forceTerminal := false }
          ((PerJobCall.fail jobs output).selects name) db := ⟨hfresh.unused, hfresh.distinct⟩
      obtain ⟨db', rows, hrun⟩ := failJobsBody_total hdb hactive hids
      rw [← hselect] at hrun
      exact ⟨db', hok hrun⟩

end Calls

/-- A statement that puts a job of the key back to where it was first claimed: a restore that names
it, or a new row under its key. -/
def Statement.Recreates (db : Database) (key : JobKey) (s : Statement) : Prop :=
  (∃ ids, s = .restoreJobs key.1 ids ∧ key.2 ∈ ids) ∨ key ∈ (s.adds db).map Job.jobKey

/-- The job has been started, and counts at least the retries of the attempt. -/
def Counted (name : String) (a : JobAttempt) (db : Database) : Prop :=
  ∀ j ∈ db.jobs, j.jobKey = (name, a.id) → j.startedOn.isSome = true ∧ a.retryCount ≤ j.retryCount

section Claims

variable {name : String} {a : JobAttempt} {db db' : Database} {i : ReinsertInput}

theorem Database.holds_iff : db.holds name a = true ↔
    ∃ j ∈ db.jobs, j.name = name ∧ j.state = .active ∧ j.attempt = a := by
  simp [holds, attemptFence]

/-- A claim that has ended stays ended, and its job counts on, while nothing recreates the job. -/
theorem claim_stays_ended {s : Statement} (hdb : db.Allowed) (hexec : s.exec db = .ok db')
    (hnot : ¬ s.Recreates db (name, a.id)) (h : Counted name a db) :
    Counted name a db' ∧ (db'.holds name a = true → db.holds name a = true) := by
  have hrow : ∀ r ∈ db'.jobs, r.jobKey = (name, a.id) → (r.startedOn.isSome = true ∧ a.retryCount ≤ r.retryCount) ∧
      (r.state = .active → r.retryCount = a.retryCount → db.holds name a = true) := by
    intro r hr hkey
    cases (s.exec_effect hdb hexec).rows r hr with
    | @moved j hj hmove =>
      obtain ⟨hcount, hstart, hactive⟩ := hmove.attempt
      have hjkey : j.jobKey = (name, a.id) := hmove.jobKey.symm.trans hkey
      rw [hcount, hstart]
      refine ⟨h j hj hjkey, fun hract hsame => Database.holds_iff.mpr ⟨j, hj, ?_, hactive hract, ?_⟩⟩
      · exact congrArg Prod.fst hjkey
      · rw [Job.attempt, hsame, show j.id = a.id from congrArg Prod.snd hjkey]
    | @claimed now j hj _ _ hset _ =>
      subst hset
      obtain ⟨hstart, hle⟩ := h j hj hkey
      have hcount : (claimSet now j).retryCount = j.retryCount + 1 := by simp [claimSet, hstart]
      exact ⟨⟨rfl, by omega⟩, fun _ hsame => by omega⟩
    | @restored n ids j hs hj hnamed hset =>
      subst hset
      simp only [named, Bool.and_eq_true, decide_eq_true_eq] at hnamed
      obtain ⟨hname, hid⟩ := Prod.mk.inj (show (j.name, j.id) = (name, a.id) from hkey)
      exact absurd (.inl ⟨ids, by rw [hs, ← hnamed.1, hname], hid ▸ hnamed.2⟩) hnot
    | added hadd => exact absurd (.inr (hkey ▸ List.mem_map_of_mem hadd)) hnot
  refine ⟨fun r hr hkey => (hrow r hr hkey).1, fun hheld => ?_⟩
  obtain ⟨r, hr, hname, hactive, hattempt⟩ := Database.holds_iff.mp hheld
  obtain ⟨hid, hcount⟩ := JobAttempt.mk.inj (hattempt : ⟨r.id, r.retryCount⟩ = (⟨a.id, a.retryCount⟩ : JobAttempt))
  exact (hrow r hr (Prod.ext hname hid)).2 hactive hcount

/-- A call makes no row active. -/
theorem PerJobCall.active_origin (c : PerJobCall) (noMultiMutationCte : Bool) (hdb : db.Allowed)
    (hexec : (c.statement name noMultiMutationCte i).exec db = .ok db') {r : Job} (hr : r ∈ db'.jobs)
    (hactive : r.state = .active) :
    ∃ j ∈ db.jobs, r.jobKey = j.jobKey ∧ r.retryCount = j.retryCount ∧ j.state = .active := by
  have hkind : (c.statement name noMultiMutationCte i).isRestore = false ∧
      (c.statement name noMultiMutationCte i).claimed db = [] ∧
      ∀ r ∈ (c.statement name noMultiMutationCte i).adds db, r.state = .created := by
    have hone : ∀ (i : FailInput) (call : FailCall), ∀ r ∈ (Statement.failJobs i call).adds db, r.state = .created := by
      intro i call r hr
      obtain ⟨j, q, r', -, -, -, rfl⟩ := deadLetterCopies_mem hr
      rfl
    have hloop : ∀ (i : ReinsertInput) (call : ReinsertCall),
        ∀ r ∈ (Statement.failDistributed i call).adds db, r.state = .created := by
      intro i call r hr
      obtain ⟨j, -, q, -, rfl⟩ := isCopy_of_mem hr rfl
      rfl
    cases c with
    | completeWithOutputs items => exact ⟨rfl, rfl, by simp [statement, Statement.adds]⟩
    | failWithOutputs items forceTerminal =>
      cases noMultiMutationCte
      · exact ⟨rfl, rfl, hone _ _⟩
      · exact ⟨rfl, rfl, hloop _ _⟩
    | fail jobs output =>
      cases noMultiMutationCte
      · exact ⟨rfl, rfl, hone _ _⟩
      · exact ⟨rfl, rfl, hloop _ _⟩
  rcases row_origin hdb hkind.1 hexec hr with ⟨j, hj, hkey, hcount, -, hjactive⟩ | ⟨-, -, -, -, hclaimed⟩ | hadd
  · exact ⟨j, hj, hkey, hcount, hjactive hactive⟩
  · simp [hkind.2.1] at hclaimed
  · simp [hkind.2.2 r hadd] at hactive

/-- A call ends the claims it names and leaves the others. -/
theorem PerJobCall.holds_after (c : PerJobCall) (noMultiMutationCte : Bool) (hdb : db.Allowed)
    (hsettles : c.Settles name db db') (hexec : (c.statement name noMultiMutationCte i).exec db = .ok db') :
    db'.holds name a = (db.holds name a && !decide (a ∈ c.items.map Prod.fst)) := by
  rw [Bool.eq_iff_iff, Bool.and_eq_true, Bool.not_eq_true', decide_eq_false_iff_not]
  constructor
  · intro hheld
    obtain ⟨r, hr, hname, hactive, rfl⟩ := Database.holds_iff.mp hheld
    obtain ⟨j, hj, hkey, hcount, hjactive⟩ := c.active_origin noMultiMutationCte hdb hexec hr hactive
    obtain ⟨hjname, hjid⟩ := Prod.mk.inj (show (r.name, r.id) = (j.name, j.id) from hkey)
    have hattempt : j.attempt = r.attempt := by rw [Job.attempt, Job.attempt, hjid, hcount]
    refine ⟨Database.holds_iff.mpr ⟨j, hj, hjname ▸ hname, hjactive, hattempt⟩, fun hmem => ?_⟩
    obtain ⟨r', hr', -, hends⟩ := hsettles.settles j hj
      (selects_iff.mpr ⟨hjname ▸ hname, hjactive, hattempt ▸ hmem⟩)
    have hrr : r ∈ [r'] := hr' ▸ List.mem_filter.mpr ⟨hr, decide_eq_true hkey⟩
    rw [← List.mem_singleton.mp hrr] at hends
    cases hk : c.kind <;> simp [hk, Settlement.Ends, hactive] at hends
  · rintro ⟨hheld, hmem⟩
    obtain ⟨j, hj, hname, hactive, rfl⟩ := Database.holds_iff.mp hheld
    refine Database.holds_iff.mpr ⟨j, hsettles.leaves j hj ?_, hname, hactive, rfl⟩
    by_contra hs
    exact hmem (selects_iff.mp (by simpa using hs)).2.2

end Claims

section Batches

variable {b : Batch} {stringify : String → Json} {result : HandlerResult}

theorem Batch.jobs_nodup (b : Batch) : b.jobs.Nodup := b.distinct.of_map _

@[simp] theorem failAll_items (b : Batch) (err : Option Json) : (b.failAll err).items.map Prod.fst = b.jobs := by
  rw [Batch.failAll, PerJobCall.items, List.map_map]
  exact List.map_id _

/-- A call of the batch names jobs of the batch, each once. -/
theorem call_jobs {c : PerJobCall} (hc : c ∈ b.settlePerJob stringify result ∨ ∃ err, c = b.failAll err) :
    (c.items.map Prod.fst).Sublist b.jobs := by
  rcases hc with hc | ⟨err, rfl⟩
  · cases result with
    | notArray =>
      obtain rfl := List.mem_singleton.mp hc
      rw [failAll_items]
    | array items =>
      have hset : ∀ k, k ≠ .batchFailed → (((b.partition stringify items).of k).map Prod.fst).Sublist b.jobs := by
        intro k hk
        rw [partition_of b items hk, List.map_map]
        exact (List.map_id _).symm ▸ List.filter_sublist
      have hc := (List.mem_filter.mp hc).1
      simp only [List.mem_cons, List.not_mem_nil, or_false] at hc
      rcases hc with rfl | rfl | rfl
      · exact hset .completed (by simp)
      · exact hset .failed (by simp)
      · exact hset .deadLettered (by simp)
  · rw [failAll_items]

theorem call_ids {c : PerJobCall} (hc : c ∈ b.settlePerJob stringify result ∨ ∃ err, c = b.failAll err) :
    (c.items.map fun item => item.1.id).Nodup := by
  have h := b.distinct.sublist ((call_jobs hc).map JobAttempt.id)
  rwa [List.map_map] at h

/-- Every job of the batch is in one of the calls. -/
theorem calls_cover {a : JobAttempt} (ha : a ∈ b.jobs) :
    ∃ c ∈ b.settlePerJob stringify result, a ∈ c.items.map Prod.fst := by
  cases result with
  | notArray => exact ⟨_, List.mem_singleton_self _, by rwa [failAll_items]⟩
  | array items =>
    have hmem : ∀ c ∈ [PerJobCall.completeWithOutputs (b.partition stringify items).completed,
        .failWithOutputs (b.partition stringify items).failed false,
        .failWithOutputs (b.partition stringify items).deadLettered true],
        a ∈ c.items.map Prod.fst → ∃ c ∈ b.settlePerJob stringify (.array items), a ∈ c.items.map Prod.fst := by
      intro c hc ha
      refine ⟨c, List.mem_filter.mpr ⟨hc, ?_⟩, ha⟩
      cases hitems : c.items with
      | nil => simp [hitems] at ha
      | cons => rfl
    have hset := (partition_perm stringify b items).mem_iff.mpr ha
    rw [List.map_append, List.map_append, List.mem_append, List.mem_append] at hset
    rcases hset with (hset | hset) | hset
    · exact hmem (.completeWithOutputs _) (by simp) hset
    · exact hmem (.failWithOutputs _ false) (by simp) hset
    · exact hmem (.failWithOutputs _ true) (by simp) hset

end Batches

/-- The calls that may still settle a job. -/
def PerJobPhase.Covers (a : JobAttempt) : PerJobPhase → Prop
  | settling rest => ∃ c ∈ rest, a ∈ c.items.map Prod.fst
  | failing => True
  | returned => False
  | raised => True

namespace PerJobWorld

/-- What every step keeps: a job's settlements, the ends others put to its claim and the claim
itself come to one more than its revivals; and a claim that was never revived is still ahead. -/
structure Accounted (b : Batch) (calls : List PerJobCall) (w : PerJobWorld) : Prop where
  allowed : w.db.Allowed
  balance : ∀ a ∈ b.jobs,
    w.timesSettled a + w.lost.count a + (w.db.holds b.name a).toNat = 1 + w.revived.count a
  ahead : ∀ a ∈ b.jobs, w.db.holds b.name a = true → w.revived.count a = 0 → w.phase.Covers a
  rest : ∀ rest, w.phase = .settling rest → rest <:+ calls
  thrown : w.phase = .failing → w.threw = true
  kinds : ∀ x ∈ w.settled, (∃ c ∈ calls, c.kind = x.2 ∧ x.1 ∈ c.items.map Prod.fst) ∨
    (w.threw = true ∧ x.2 = .batchFailed)

variable {b : Batch} {calls : List PerJobCall} {w w' w₀ : PerJobWorld} {c : PerJobCall} {i : ReinsertInput}
  {noMultiMutationCte ownPool : Bool} {may : Database → Statement → Prop} {db' : Database}

theorem Start.accounted (h : w.Start b calls) (hcover : ∀ a ∈ b.jobs, ∃ c ∈ calls, a ∈ c.items.map Prod.fst) :
    w.Accounted b calls where
  allowed := h.allowed
  balance a ha := by
    obtain ⟨j, hj, hname, hattempt, hactive, -⟩ := h.claimed a ha
    have hheld : w.db.holds b.name a = true := Database.holds_iff.mpr ⟨j, hj, hname, hactive, hattempt⟩
    simp [timesSettled, h.settled, h.lost, h.revived, hheld]
  ahead a ha _ _ := by rw [h.phase]; exact hcover a ha
  rest rest hphase := by
    rw [h.phase, PerJobPhase.settling.injEq] at hphase
    exact hphase ▸ List.suffix_refl _
  thrown hphase := by rw [h.phase] at hphase; simp at hphase
  kinds x hx := by simp [h.settled] at hx

/-- A statement of another session is booked as a loss or a revival of what it changed. -/
theorem Accounted.outside (h : w.Accounted b calls) (hallowed : db'.Allowed) :
    (w.outside b db').Accounted b calls where
  allowed := hallowed
  balance a ha := by
    have hbalance := h.balance a ha
    have hcount : ∀ p : JobAttempt → Bool, (b.jobs.filter p).count a = (p a).toNat := fun p => by
      rw [(b.jobs_nodup.filter p).count]
      cases hp : p a <;> simp [ha, hp]
    simp only [PerJobWorld.outside, timesSettled, List.count_append, hcount] at hbalance ⊢
    cases hbefore : w.db.holds b.name a <;> cases db'.holds b.name a <;> simp [hbefore] at hbalance ⊢ <;> omega
  ahead a ha hheld hrevived := by
    simp only [PerJobWorld.outside, List.count_append, Nat.add_eq_zero_iff] at hheld hrevived ⊢
    refine h.ahead a ha ?_ hrevived.2
    by_contra hnot
    exact List.count_pos_iff.mpr (List.mem_filter.mpr ⟨ha, by simp [hheld, hnot]⟩) |>.ne' hrevived.1
  rest := h.rest
  thrown := h.thrown
  kinds := h.kinds

/-- A call of the batch settles the claims it names that are held, each once. -/
theorem Accounted.ran (h : w.Accounted b calls) (hjobs : (c.items.map Prod.fst).Sublist b.jobs)
    (hids : (c.items.map fun item => item.1.id).Nodup) (hran : c.Ran b.name noMultiMutationCte may i w.db db')
    {phase : PerJobPhase} {threw : Bool} (hthrew : w.threw = true → threw = true)
    (hcovers : ∀ a ∈ b.jobs, w.phase.Covers a → a ∉ c.items.map Prod.fst → phase.Covers a)
    (hrest : ∀ rest, phase = .settling rest → rest <:+ calls) (hthrown : phase = .failing → threw = true)
    (hkind : c ∈ calls ∨ (threw = true ∧ c.kind = .batchFailed)) :
    Accounted b calls { w.ran b c db' phase with threw := threw } := by
  have hsettles := c.settles_of_exec noMultiMutationCte h.allowed hids hran.fresh hran.exec
  have hafter : ∀ a, db'.holds b.name a = (w.db.holds b.name a && !decide (a ∈ c.items.map Prod.fst)) :=
    fun a => c.holds_after noMultiMutationCte h.allowed hsettles hran.exec
  refine ⟨(Statement.exec_effect _ h.allowed hran.exec).allowed, fun a ha => ?_, fun a ha hheld hrevived => ?_,
    hrest, hthrown, fun x hx => ?_⟩
  · have hbalance := h.balance a ha
    have hcount : ((c.items.map Prod.fst).filter (w.db.holds b.name)).count a =
        (w.db.holds b.name a && decide (a ∈ c.items.map Prod.fst)).toNat := by
      rw [((hjobs.nodup b.jobs_nodup).filter _).count]
      by_cases hmem : a ∈ c.items.map Prod.fst <;> cases hheld : w.db.holds b.name a <;>
        simp only [List.mem_filter, hmem, hheld] <;> simp
    simp only [PerJobWorld.ran, timesSettled, List.map_append, List.map_map, List.count_append] at hbalance ⊢
    rw [show (Prod.fst ∘ fun a => (a, c.kind)) = id from rfl, List.map_id, hcount, hafter]
    by_cases hmem : a ∈ c.items.map Prod.fst <;> cases hheld : w.db.holds b.name a <;>
      simp only [hmem, hheld, decide_true, decide_false] at hbalance ⊢ <;> simp at hbalance ⊢ <;> omega
  · simp only [PerJobWorld.ran, hafter, Bool.and_eq_true, Bool.not_eq_true', decide_eq_false_iff_not] at hheld hrevived
    exact hcovers a ha (h.ahead a ha hheld.1 hrevived) hheld.2
  · rcases List.mem_append.mp hx with hx | hx
    · obtain ⟨a, ha, rfl⟩ := List.mem_map.mp hx
      exact hkind.imp (fun hc => ⟨c, hc, rfl, (List.mem_filter.mp ha).1⟩) id
    · exact (h.kinds x hx).imp id fun hx => ⟨hthrew hx.1, hx.2⟩

variable {stringify : String → Json} {result : HandlerResult}

/-- A call that was cut short stays known. -/
theorem Step.whole (hstep : Step b noMultiMutationCte ownPool may w w') (hcut : w'.cut = false) : w.cut = false := by
  cases hstep with
  | cutShort | failCutShort => cases hcut
  | _ => exact hcut

/-- No call is cut short where its statements share a transaction or are one. -/
theorem Run.whole (hwhole : noMultiMutationCte = false ∨ ownPool = true) (hcut : w₀.cut = false)
    (hrun : Run b noMultiMutationCte ownPool may w₀ w) : w.cut = false := by
  have hnone : ∀ {c : PerJobCall} {i : ReinsertInput} {db db' : Database},
      ¬ c.CutShort b.name noMultiMutationCte ownPool i db db' := fun h => by
    rcases hwhole with hone | hown
    · exact Bool.false_ne_true (hone.symm.trans h.multi)
    · exact Bool.false_ne_true (h.inline.symm.trans hown)
  induction hrun with
  | refl => exact hcut
  | tail _ hlast ih =>
    cases hlast with
    | cutShort c rest i db' hphase h => exact (hnone h).elim
    | failCutShort err i db' hphase h => exact (hnone h).elim
    | _ => exact ih

theorem Accounted.step (h : w.Accounted b (b.settlePerJob stringify result))
    (hstep : Step b noMultiMutationCte ownPool may w w') (hcut : w'.cut = false) :
    w'.Accounted b (b.settlePerJob stringify result) := by
  have hnone : ∀ err : Option Json, ∀ a ∈ b.jobs, a ∉ (b.failAll err).items.map Prod.fst → False := fun err a ha hnot =>
    hnot (by rwa [failAll_items])
  cases hstep with
  | outside s db' hmay hexec => exact h.outside (s.exec_effect h.allowed hexec).allowed
  | answered c rest i db' hphase hran =>
    have hsuffix := h.rest _ hphase
    have hc := hsuffix.subset List.mem_cons_self
    have hnext : Accounted b (b.settlePerJob stringify result)
        { w.ran b c db' (.settling rest) with threw := w.threw } := by
      refine h.ran (call_jobs (.inl hc)) (call_ids (.inl hc)) hran id (fun a ha hcovers hnot => ?_) (fun next hnext => ?_)
        (fun hfailing => by simp at hfailing) (.inl hc)
      · rw [hphase] at hcovers
        obtain ⟨c', hc', hmem⟩ := hcovers
        rcases List.mem_cons.mp hc' with rfl | hc'
        · exact absurd hmem hnot
        · exact ⟨c', hc', hmem⟩
      · rw [PerJobPhase.settling.injEq] at hnext
        exact hnext ▸ (List.suffix_cons c rest).trans hsuffix
    exact hnext
  | unanswered c rest i db' hphase hran =>
    have hc := (h.rest _ hphase).subset List.mem_cons_self
    exact h.ran (call_jobs (.inl hc)) (call_ids (.inl hc)) hran (fun _ => rfl) (fun _ _ _ _ => trivial)
      (fun next hnext => by simp at hnext) (fun _ => rfl) (.inl hc)
  | threw rest hphase =>
    exact ⟨h.allowed, h.balance, fun _ _ _ _ => trivial, fun next hnext => by simp at hnext, fun _ => rfl,
      fun x hx => (h.kinds x hx).imp id fun hx => ⟨rfl, hx.2⟩⟩
  | tracked hphase =>
    refine ⟨h.allowed, h.balance, fun a ha hheld hrevived => ?_, fun next hnext => by simp at hnext,
      fun hfailing => by simp at hfailing, h.kinds⟩
    have hcovers := h.ahead a ha hheld hrevived
    rw [hphase] at hcovers
    obtain ⟨c, hc, -⟩ := hcovers
    simp at hc
  | failed err i db' hphase hran =>
    have hnext : Accounted b (b.settlePerJob stringify result)
        { w.ran b (b.failAll err) db' .returned with threw := w.threw } :=
      h.ran (@call_jobs b stringify result _ (.inr ⟨err, rfl⟩))
        (@call_ids b stringify result _ (.inr ⟨err, rfl⟩)) hran id
        (fun a ha _ hnot => (hnone err a ha hnot).elim) (fun next hnext => by simp at hnext)
        (fun hfailing => by simp at hfailing) (.inr ⟨h.thrown hphase, rfl⟩)
    exact hnext
  | failUnanswered err i db' hphase hran =>
    have hnext : Accounted b (b.settlePerJob stringify result)
        { w.ran b (b.failAll err) db' .raised with threw := w.threw } :=
      h.ran (@call_jobs b stringify result _ (.inr ⟨err, rfl⟩))
        (@call_ids b stringify result _ (.inr ⟨err, rfl⟩)) hran id
        (fun _ _ _ _ => trivial) (fun next hnext => by simp at hnext)
        (fun hfailing => by simp at hfailing) (.inr ⟨h.thrown hphase, rfl⟩)
    exact hnext
  | failThrew hphase =>
    exact ⟨h.allowed, h.balance, fun _ _ _ _ => trivial, fun next hnext => by simp at hnext,
      fun hfailing => by simp at hfailing, h.kinds⟩
  | cutShort => cases hcut
  | failCutShort => cases hcut

theorem Run.accounted (hstart : w₀.Start b (b.settlePerJob stringify result))
    (hrun : Run b noMultiMutationCte ownPool may w₀ w) (hcut : w.cut = false) :
    w.Accounted b (b.settlePerJob stringify result) := by
  induction hrun with
  | refl => exact hstart.accounted fun a ha => calls_cover ha
  | tail _ hlast ih => exact (ih (hlast.whole hcut)).step hlast hcut

/-- While nothing recreates a job, its claim is never brought back. -/
theorem Run.never_revived {a : JobAttempt} (ha : a ∈ b.jobs) (hstart : w₀.Start b (b.settlePerJob stringify result))
    (hrun : Run b noMultiMutationCte ownPool may w₀ w) (hcut : w.cut = false)
    (hmay : ∀ db s, may db s → ¬ s.Recreates db (b.name, a.id)) :
    w.revived.count a = 0 ∧ Counted b.name a w.db := by
  induction hrun with
  | refl =>
    refine ⟨by simp [hstart.revived], fun k hk hkey => ?_⟩
    obtain ⟨j, hj, hname, rfl, -, hstarted⟩ := hstart.claimed a ha
    rw [hstart.allowed.eq_of_jobKey hk hj (hkey.trans (Prod.ext hname.symm rfl))]
    exact ⟨hstarted, le_rfl⟩
  | tail hsteps hlast ih =>
    rename_i w w'
    have hwhole := hlast.whole hcut
    have hallowed := (Run.accounted hstart hsteps hwhole).allowed
    obtain ⟨hrevived, hcounted⟩ := ih hwhole
    have hown : ∀ {c : PerJobCall} {i : ReinsertInput} {db' : Database},
        c.Ran b.name noMultiMutationCte may i w.db db' → Counted b.name a db' := fun hran =>
      (claim_stays_ended hallowed hran.exec (hmay _ _ hran.may) hcounted).1
    cases hlast with
    | outside s db' hs hexec =>
      obtain ⟨hnext, hholds⟩ := claim_stays_ended hallowed hexec (hmay _ _ hs) hcounted
      refine ⟨?_, hnext⟩
      simp only [PerJobWorld.outside, List.count_append, hrevived, Nat.add_zero]
      refine List.count_eq_zero.mpr fun hmem => ?_
      obtain ⟨hnot, hheld⟩ := Bool.and_eq_true_iff.mp (List.mem_filter.mp hmem).2
      simp [hholds hheld] at hnot
    | answered c rest i db' hphase hran => exact ⟨hrevived, hown hran⟩
    | unanswered c rest i db' hphase hran => exact ⟨hrevived, hown hran⟩
    | threw rest hphase => exact ⟨hrevived, hcounted⟩
    | tracked hphase => exact ⟨hrevived, hcounted⟩
    | failed err i db' hphase hran => exact ⟨hrevived, hown hran⟩
    | failUnanswered err i db' hphase hran => exact ⟨hrevived, hown hran⟩
    | failThrew hphase => exact ⟨hrevived, hcounted⟩
    | cutShort => cases hcut
    | failCutShort => cases hcut

end PerJobWorld

section Thrown

/-- Three jobs of a queue as one fetch left them. -/
def runningJob (id : Uuid) : Job where
  id := id
  name := "q"
  state := .active
  startAfter := 0
  createdOn := 0
  startedOn := some 1
  keepUntil := 0

def threeJobs : Batch where
  name := "q"
  jobs := [⟨1, 0⟩, ⟨2, 0⟩, ⟨3, 0⟩]
  distinct := by decide

/-- The handler names the first job twice and the third once, and the second not at all. -/
def entries : HandlerResult :=
  .array [some ⟨some (uuidText 1), some "failed", none⟩, none, some ⟨some (uuidText 3), some "deadletter", none⟩,
    some ⟨some (uuidText 1), some "completed", none⟩, some ⟨some "job", some "completed", none⟩]

def noErrors (message : String) : Json := message

def threeRunning : PerJobWorld where
  db := { jobs := [runningJob 1, runningJob 2, runningJob 3] }
  phase := .settling (threeJobs.settlePerJob noErrors entries)

def drawn : ReinsertInput where
  now := 5
  random := fun _ => 0
  newId := fun j => j.id + 10
  output := fun _ => none
  clock := 5

/-- No statement of the run restores or adds a job. -/
def addsNone (db : Database) (s : Statement) : Prop := s.isRestore = false ∧ s.adds db = []

instance (db : Database) (s : Statement) : Decidable (addsNone db s) := inferInstanceAs (Decidable (_ ∧ _))

def jobsAfter (r : Except SqlError Database) : Database := r.toOption.getD {}

def completedFirst : PerJobWorld :=
  threeRunning.ran threeJobs (.completeWithOutputs [(⟨1, 0⟩, none)])
    (jobsAfter (((PerJobCall.completeWithOutputs [(⟨1, 0⟩, none)]).statement "q" false drawn).exec threeRunning.db))
    (.settling [.failWithOutputs [(⟨2, 0⟩, some "no disposition returned by handler")] false,
      .failWithOutputs [(⟨3, 0⟩, none)] true])

/-- The second statement throws. -/
def thrown : PerJobWorld := { completedFirst with phase := .failing, threw := true }

def failedRest : PerJobWorld :=
  thrown.ran threeJobs (threeJobs.failAll (some "lost connection"))
    (jobsAfter (((threeJobs.failAll (some "lost connection")).statement "q" false drawn).exec thrown.db)) .returned

theorem threeRunning_start : threeRunning.Start threeJobs (threeJobs.settlePerJob noErrors entries) :=
  ⟨⟨by decide, by decide⟩, by decide, rfl, rfl, rfl, rfl, rfl, rfl⟩

theorem threeRunning_phase : threeRunning.phase = .settling [.completeWithOutputs [(⟨1, 0⟩, none)],
    .failWithOutputs [(⟨2, 0⟩, some "no disposition returned by handler")] false,
    .failWithOutputs [(⟨3, 0⟩, none)] true] := by
  have hcalls : threeJobs.settlePerJob noErrors entries = [.completeWithOutputs [(⟨1, 0⟩, none)],
      .failWithOutputs [(⟨2, 0⟩, some "no disposition returned by handler")] false,
      .failWithOutputs [(⟨3, 0⟩, none)] true] := by decide
  exact congrArg PerJobPhase.settling hcalls

/-- Inline, the second call is cut short: its job is deleted and the insert is rejected. -/
def cutSecond : PerJobWorld :=
  { completedFirst.cutShort threeJobs (.failWithOutputs [(⟨2, 0⟩, some "no disposition returned by handler")] false)
      (((ReinsertCall.failWithOutputs "q" [(⟨2, 0⟩, some "no disposition returned by handler")] false).sent drawn
        completedFirst.db).after completedFirst.db 2) .failing with threw := true }

def failedLast : PerJobWorld :=
  cutSecond.ran threeJobs (threeJobs.failAll (some "lost connection"))
    (jobsAfter (((threeJobs.failAll (some "lost connection")).statement "q" true drawn).exec cutSecond.db)) .returned

end Thrown

end PgBoss
