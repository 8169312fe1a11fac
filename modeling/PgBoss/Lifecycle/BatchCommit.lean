import PgBoss.Manager.HandlerSettles
import PgBoss.Lifecycle.AttemptFence

/-!
# A transactional batch commits under its claims

What the handler's settles and the last completion touched is counted by id. The count adds up
because a row a settle has touched is locked and no longer active, so the completion cannot
touch it again; and because each recorded id of the batch stands for a row that was active under
the batch's claim when the settle found it. The second holds of a call that is fenced to the
claims. It holds of any other call only where nothing else is found under a batch job's id.
-/

namespace PgBoss

variable {b : Batch} {w w' : BatchWorld} {c : SettleCall} {db db' : Database} {ids : List Uuid}

/-- The row is a job of the batch, active at the attempt the worker fetched. -/
def Batch.Held (b : Batch) (j : Job) : Prop := j.name = b.name ∧ j.state = .active ∧ j.attempt ∈ b.jobs

/-- The call names the batch's queue and the batch's jobs alone, each as it was fetched. -/
def SettleCall.FencedBy (b : Batch) (c : SettleCall) : Prop :=
  c.name = b.name ∧ ∃ texts, c.arg = .plain texts ∧ ∀ text ∈ texts, text ∈ b.jobIds

/-- The call is fenced to the batch's claims, or what it finds under a batch job's id is that job,
still active under its claim. -/
def SettleCall.Minds (b : Batch) (w : BatchWorld) (c : SettleCall) : Prop :=
  c.FencedBy b ∨ ∀ j ∈ w.db.jobs, c.selects b.claims j = true → j.id ∈ b.jobs.map JobAttempt.id → b.Held j

/-- The job was settled, by a call of the handler or by the last completion, and was active under
the worker's claim when the settle found it. -/
def BatchWorld.SettledUnder (b : Batch) (now : Timestamp) (output : Option Json) (w : BatchWorld) (a : JobAttempt) :
    Prop :=
  ∃ j, (j ∈ w.touched ∨ j ∈ w.db.jobs ∧ (b.completion now output).selects b.claims j = true) ∧
    j.name = b.name ∧ j.state = .active ∧ j.attempt = a

section Methods

/-- What a settle leaves: no row it selected is active, and the ids it returns are theirs. -/
structure Settled (select : Job → Bool) (db db' : Database) (ids : List Uuid) : Prop where
  allowed : db'.Allowed
  ids : ∀ id ∈ ids, ∃ j ∈ db.jobs, select j = true ∧ j.id = id
  active : ∀ r ∈ db'.jobs, r.state = .active → r ∈ db.jobs ∧ select r = false

variable {name : String} {attempts : Option (List JobAttempt)} {select : Job → Bool}

theorem settled_update {set : Job → Job} (hdb : db.Allowed) (h : db.updateWhere select set = .ok (db', ids))
    (hset : ∀ j, (set j).policy = j.policy ∧ (set j).singletonKey = j.singletonKey ∧ (set j).state ≠ .active) :
    Settled select db db' ids where
  allowed := Database.updateWhere_allowed set hdb (fun j => ⟨(hset j).1, (hset j).2.1⟩) h
  ids id hid := by
    obtain ⟨-, -, -, rfl⟩ := Database.updateWhere_ok h
    obtain ⟨j, hj, rfl⟩ := List.mem_map.mp hid
    exact ⟨j, (List.mem_filter.mp hj).1, (List.mem_filter.mp hj).2, rfl⟩
  active r hr hactive := by
    rcases (Database.updateWhere_mem h).mp hr with hr | ⟨j, -, -, rfl⟩
    · exact hr
    · exact absurd hactive (hset j).2.2

theorem settled_fail {i : FailInput} {rows : List Job} (hdb : db.Allowed)
    (h : failJobsBody i select db = .ok (db', rows)) : Settled select db db' (rows.map Job.id) where
  allowed := failJobsBody_allowed hdb h
  ids id hid := by
    obtain ⟨-, -, -, -, rfl⟩ := failJobsBody_ok h
    simp only [failResults, List.map_append, List.map_map, List.mem_append, List.mem_map, Function.comp_apply] at hid
    rcases hid with ⟨j, hj, rfl⟩ | ⟨j, hj, rfl⟩
    · exact ⟨j, (acceptedRetries_mem hj).1, (acceptedRetries_mem hj).2, rfl⟩
    · exact ⟨j, (insertedFailures_mem.mp hj).1.1, (insertedFailures_mem.mp hj).1.2, rfl⟩
  active r hr hactive := by
    rcases (failJobsBody_mem h).mp hr with hr | ⟨j, -, rfl⟩ | ⟨j, -, rfl⟩ | hcopy
    · exact hr
    · exact absurd hactive (retryRow_state_ne i j).2
    · cases hactive
    · obtain ⟨j, q, r, -, -, -, rfl⟩ := deadLetterCopies_mem hcopy
      cases hactive

theorem settled_failDistributed {i : ReinsertInput} {response : CommandResponse} (hdb : db.Allowed)
    (h : PgBoss.failDistributed i name ids attempts db = .ok (db', response)) :
    Settled (failSelects name ids attempts) db db' response.settled := by
  have hexec : (Statement.failDistributed i (.fail name ids attempts)).exec db = .ok db' := by
    simp [Statement.exec, ReinsertCall.run, h, Except.map]
  have hloop : reinsertFailedJobs { i with forceTerminal := false } 0 (db.jobs.filter (failSelects name ids attempts))
      (db.without (db.jobs.filter (failSelects name ids attempts))) = .ok (db', response.affected) := by
    have hrun := (ReinsertCall.fail name ids attempts).run_eq i hdb
    simp only [ReinsertCall.run, h, Except.map] at hrun
    exact hrun.symm
  refine ⟨(Statement.exec_effect _ hdb hexec).allowed, fun id hid => ?_, fun r hr hactive => ?_⟩
  · rw [PgBoss.failDistributed, failSelected] at h
    obtain ⟨j, hj, rfl⟩ : ∃ j ∈ db.jobs.filter (failSelects name ids attempts), j.id = id := by
      split at h
      · obtain ⟨-, rfl⟩ := Prod.mk.inj (Except.ok.inj h)
        simp at hid
      · rename_i j rest hjobs
        split at h
        · contradiction
        · obtain ⟨-, rfl⟩ := Prod.mk.inj (Except.ok.inj h)
          exact hjobs ▸ List.mem_map.mp hid
    exact ⟨j, (List.mem_filter.mp hj).1, (List.mem_filter.mp hj).2, rfl⟩
  · rcases (reinsertFailedJobs_looped hloop).rows r hr with hr | ⟨j, -, ⟨rfl, -⟩ | rfl⟩ | hcopy
    · obtain ⟨hmem, hnot⟩ := List.mem_filter.mp hr
      exact ⟨hmem, by simpa [hmem] using hnot⟩
    · cases hactive
    · cases hactive
    · obtain ⟨j, -, q, -, rfl⟩ := isCopy_of_mem hcopy rfl
      cases hactive

/-- Every settle that returns. -/
theorem SettleMethod.run_settled {m : SettleMethod} (hdb : db.Allowed) {settled : List Uuid}
    (h : m.run name ids attempts db = .ok (db', settled)) : Settled (m.selects name ids attempts) db db' settled := by
  cases m with
  | complete now output includeQueued => exact settled_update hdb h fun j => ⟨rfl, rfl, by simp [completeSet]⟩
  | fail i =>
    cases hrun : failJobsById i name ids attempts db with
    | error e => simp [run, hrun, Except.map] at h
    | ok out =>
      obtain ⟨rfl, rfl⟩ : out.1 = db' ∧ out.2.map Job.id = settled := by simpa [run, hrun, Except.map] using h
      exact settled_fail hdb hrun
  | failDistributed i =>
    cases hrun : PgBoss.failDistributed i name ids attempts db with
    | error e => simp [run, hrun, Except.map] at h
    | ok out =>
      obtain ⟨rfl, rfl⟩ : out.1 = db' ∧ out.2.settled = settled := by simpa [run, hrun, Except.map] using h
      exact settled_failDistributed hdb hrun
  | cancel now => exact settled_update hdb h fun j => ⟨rfl, rfl, by simp [cancelSet]⟩
  | deleteJob =>
    obtain ⟨rfl, rfl⟩ := Prod.mk.inj (Except.ok.inj h)
    refine ⟨⟨hdb.consistent.filter _, fun r hr => hdb.check r (List.mem_filter.mp hr).1⟩, fun id hid => ?_, fun r hr _ => ?_⟩
    · obtain ⟨j, hj, rfl⟩ := List.mem_map.mp hid
      exact ⟨j, (List.mem_filter.mp hj).1, (List.mem_filter.mp hj).2, rfl⟩
    · obtain ⟨hmem, hnot⟩ := List.mem_filter.mp hr
      exact ⟨hmem, (Bool.not_eq_true' _).mp hnot⟩

/-- A settle is confined to the named rows its fence lets through. -/
theorem SettleMethod.selects_named {m : SettleMethod} {j : Job} (h : m.selects name ids attempts j = true) :
    j.name = name ∧ j.id ∈ ids ∧ fence attempts j = true := by
  cases m <;>
    simp only [selects, completeSelects, failSelects, cancelSelects, named, Bool.and_eq_true, decide_eq_true_eq] at h <;>
    tauto

end Methods

section Fenced

/-- The claim a text of the batch stands for. -/
theorem Batch.claims_lookup {text : String} :
    (text ∈ b.jobIds → (b.claims.lookup text).isSome = true) ∧
      ∀ n, b.claims.lookup text = some n → ∃ a ∈ b.jobs, uuidText a.id = text ∧ a.retryCount = n := by
  refine ⟨fun htext => ?_, fun n hn => ?_⟩
  · obtain ⟨a, ha, rfl⟩ := List.mem_map.mp htext
    rw [List.lookup_isSome_iff]
    exact ⟨(uuidText a.id, a.retryCount), List.mem_map.mpr ⟨a, ha, rfl⟩, by simp⟩
  · obtain ⟨l₁, l₂, hsplit, -⟩ := List.lookup_eq_some_iff.mp hn
    have hmem : (text, n) ∈ b.claims := hsplit ▸ by simp
    obtain ⟨a, ha, hpair⟩ := List.mem_map.mp hmem
    obtain ⟨htext, hcount⟩ := Prod.mk.inj hpair
    exact ⟨a, ha, htext, hcount⟩

/-- The pairs of texts that are all the batch's are claims of the batch. -/
theorem Batch.pairs_subset {texts : List String} {attempts : List ℕ} (hids : texts.mapM uuidIn = some ids)
    (hattempts : handlerAttempts b.claims texts = some attempts) :
    ∀ a ∈ List.zipWith JobAttempt.mk ids attempts, a ∈ b.jobs := by
  induction texts generalizing ids attempts with
  | nil =>
    obtain rfl : ids = [] := by simpa using hids.symm
    simp
  | cons text texts ih =>
    rw [List.mapM_cons] at hids
    obtain ⟨id, hid, hids⟩ := Option.bind_eq_some_iff.mp hids
    obtain ⟨ids', hids', heq⟩ := Option.bind_eq_some_iff.mp hids
    obtain rfl := Option.some.inj heq
    rw [handlerAttempts, List.mapM_cons] at hattempts
    obtain ⟨n, hn, hattempts⟩ := Option.bind_eq_some_iff.mp hattempts
    obtain ⟨attempts', hattempts', heq⟩ := Option.bind_eq_some_iff.mp hattempts
    obtain rfl := Option.some.inj heq
    intro a ha
    rcases List.mem_cons.mp ha with rfl | ha
    · obtain ⟨held, hheld, rfl, rfl⟩ := Batch.claims_lookup.2 n hn
      rw [uuidIn_uuidText] at hid
      exact Option.some.inj hid ▸ hheld
    · exact ih hids' hattempts' a ha

/-- A call that names the batch's jobs alone is fenced to the batch's claims. -/
theorem SettleCall.FencedBy.held (h : c.FencedBy b) {j : Job} (hsel : c.selects b.claims j = true) : b.Held j := by
  obtain ⟨hname, texts, harg, htexts⟩ := h
  simp only [selects, harg, SettleArg.mapAttemptArg] at hsel
  cases hids : texts.mapM uuidIn with
  | none => simp [hids] at hsel
  | some ids =>
    have hsome : ∃ attempts, handlerAttempts b.claims texts = some attempts := by
      clear hsel hids harg
      induction texts with
      | nil => exact ⟨[], rfl⟩
      | cons text texts ih =>
        obtain ⟨n, hn⟩ := Option.isSome_iff_exists.mp (Batch.claims_lookup.1 (htexts text (by simp)))
        obtain ⟨attempts, hattempts⟩ := ih fun t ht => htexts t (List.mem_cons_of_mem _ ht)
        refine ⟨n :: attempts, ?_⟩
        rw [handlerAttempts] at hattempts
        simp [handlerAttempts, List.mapM_cons, hn, hattempts]
    obtain ⟨attempts, hattempts⟩ := hsome
    simp only [hids, Option.any_some, pairs, SettleCall.attempts, harg, SettleArg.mapAttemptArg, hattempts,
      Option.map_some] at hsel
    obtain ⟨hjname, -, hfence⟩ := SettleMethod.selects_named hsel
    simp only [fence, attemptFence, Bool.and_eq_true, decide_eq_true_eq] at hfence
    exact ⟨hjname.trans hname, hfence.1, Batch.pairs_subset hids hattempts _ hfence.2⟩

/-- What a call that minds the claims finds under a batch job's id. -/
theorem SettleCall.Minds.held (h : c.Minds b w) {j : Job} (hj : j ∈ w.db.jobs) (hsel : c.selects b.claims j = true)
    {a : JobAttempt} (ha : a ∈ b.jobs) (hid : j.id = a.id) : b.Held j ∧ j.attempt = a := by
  have hheld : b.Held j := by
    rcases h with hfenced | hfound
    · exact hfenced.held hsel
    · exact hfound j hj hsel (hid ▸ List.mem_map_of_mem ha)
  exact ⟨hheld, List.inj_on_of_nodup_map b.distinct hheld.2.2 ha hid⟩

/-- The completion touches jobs the batch holds, at their claims. -/
theorem Batch.completion_held {now : Timestamp} {output : Option Json} {j : Job}
    (hsel : (b.completion now output).selects b.claims j = true) : b.Held j := by
  have htexts : (b.claims.map Prod.fst).mapM uuidIn = some (b.jobs.map JobAttempt.id) := by
    simp only [Batch.claims, List.map_map]
    induction b.jobs with
    | nil => rfl
    | cons a jobs ih => simp [List.mapM_cons, uuidIn_uuidText, ih]
  have hpairs : ∀ jobs : List JobAttempt,
      List.zipWith JobAttempt.mk (jobs.map JobAttempt.id) (jobs.map JobAttempt.retryCount) = jobs := by
    intro jobs
    induction jobs with
    | nil => rfl
    | cons a jobs ih => simp [ih]
  have hcounts : b.claims.map Prod.snd = b.jobs.map JobAttempt.retryCount := by
    simp [Batch.claims, Function.comp_def]
  simp only [SettleCall.selects, Batch.completion, SettleArg.mapAttemptArg, htexts, Option.any_some,
    SettleCall.pairs, SettleCall.attempts, Option.map_some, hcounts, hpairs] at hsel
  obtain ⟨hname, -, hfence⟩ := SettleMethod.selects_named hsel
  simp only [fence, attemptFence, Bool.and_eq_true, decide_eq_true_eq] at hfence
  exact ⟨hname, hfence.1, hfence.2⟩

/-- A call that returns. -/
theorem SettleCall.run_settled {claims : List (String × ℕ)} (hdb : db.Allowed)
    (h : c.run claims db = some (db', ids)) : Settled (c.selects claims) db db' ids := by
  obtain ⟨uuids, hids, hrun⟩ := Option.bind_eq_some_iff.mp h
  have hselects : c.selects claims = c.method.selects c.name uuids (c.pairs claims uuids) := by
    funext j
    simp [selects, hids]
  rw [hselects]
  cases hreply : c.method.run c.name uuids (c.pairs claims uuids) db with
  | error e => simp [hreply, Except.toOption] at hrun
  | ok out =>
    obtain rfl : out = (db', ids) := by simpa [hreply, Except.toOption] using hrun
    exact SettleMethod.run_settled hdb hreply

end Fenced

section Commit

/-- What a run keeps: the recorded jobs of the batch were active under its claims when a settle
found them, and no row a settle has found is active now. -/
structure BatchWorld.Kept (b : Batch) (w : BatchWorld) : Prop where
  allowed : w.db.Allowed
  recorded : ∀ a ∈ b.jobs, uuidText a.id ∈ w.settled →
    ∃ j ∈ w.touched, j.name = b.name ∧ j.state = .active ∧ j.attempt = a
  idle : ∀ j ∈ w.touched, ∀ r ∈ w.db.jobs, r.jobKey = j.jobKey → r.state ≠ .active

theorem BatchWorld.Start.kept (h : w.Start) : w.Kept b where
  allowed := h.allowed
  recorded a _ hmem := by simp [h.settled] at hmem
  idle j hj := by simp [h.touched] at hj

/-- A call of the handler that minds the claims. -/
theorem BatchWorld.Kept.call (h : w.Kept b) (hminds : c.Minds b w) : (w.call b c).Kept b := by
  rw [BatchWorld.call]
  split
  · exact h
  split
  · exact ⟨h.allowed, h.recorded, h.idle⟩
  rename_i db' ids hrun
  have hsettled := c.run_settled h.allowed hrun
  refine ⟨hsettled.allowed, fun a ha hmem => ?_, fun j hj r hr hkey hactive => ?_⟩
  · rcases List.mem_append.mp hmem with hmem | hmem
    · obtain ⟨id, hid, htext⟩ := List.mem_map.mp hmem
      obtain ⟨j, hj, hsel, hjid⟩ := hsettled.ids id hid
      obtain ⟨hheld, hattempt⟩ := hminds.held hj hsel ha (hjid.trans (uuidText_injective htext))
      exact ⟨j, List.mem_append_left _ (List.mem_filter.mpr ⟨hj, hsel⟩), hheld.1, hheld.2.1, hattempt⟩
    · obtain ⟨j, hj, hjob⟩ := h.recorded a ha hmem
      exact ⟨j, List.mem_append_right _ hj, hjob⟩
  · obtain ⟨hrold, hunselected⟩ := hsettled.active r hr hactive
    rcases List.mem_append.mp hj with hj | hj
    · obtain ⟨hjdb, hsel⟩ := List.mem_filter.mp hj
      obtain rfl := h.allowed.eq_of_jobKey hrold hjdb hkey
      simp [hsel] at hunselected
    · exact h.idle j hj r hrold hkey hactive

/-- An outside operation. -/
theorem BatchWorld.Kept.outside (h : w.Kept b) (houtside : w.Outside db') : { w with db := db' }.Kept b where
  allowed := houtside.1
  recorded := h.recorded
  idle j hj r hr hkey := by
    have hlocked : r.jobKey ∈ w.touched.map Job.jobKey := hkey ▸ List.mem_map_of_mem hj
    exact h.idle j hj r ((houtside.2 r hlocked).mp hr) hkey

/-- One step. -/
theorem BatchWorld.Kept.step (h : w.Kept b) (hstep : BatchWorld.Step b (SettleCall.Minds b) w w') : w'.Kept b := by
  cases hstep with
  | call c hminds => exact h.call hminds
  | outside db' houtside => exact h.outside houtside

/-- A run. -/
theorem BatchWorld.Run.kept {w₀ : BatchWorld} (hrun : BatchWorld.Run b (SettleCall.Minds b) w₀ w) (hstart : w₀.Start) :
    w.Kept b := by
  induction hrun with
  | refl => exact hstart.kept
  | tail _ hlast ih => exact ih.step hlast

/-- The rows the completion touches are jobs of the batch that no settle has recorded. -/
theorem BatchWorld.Kept.completed (h : w.Kept b) {now : Timestamp} {output : Option Json} {j : Job}
    (hj : j ∈ w.db.jobs) (hsel : (b.completion now output).selects b.claims j = true) :
    j.attempt ∈ b.jobs.filter fun a => !decide (uuidText a.id ∈ w.settled) := by
  obtain ⟨hname, hactive, hmem⟩ := Batch.completion_held hsel
  refine List.mem_filter.mpr ⟨hmem, ?_⟩
  rw [Bool.not_eq_true', decide_eq_false_iff_not]
  intro hrecorded
  obtain ⟨k, hk, hkname, -, hkattempt⟩ := h.recorded _ hmem hrecorded
  have hkey : j.jobKey = k.jobKey := Prod.ext (hname.trans hkname.symm) (congrArg JobAttempt.id hkattempt).symm
  exact h.idle k hk j hj hkey hactive

/-- The completion counts the rows it selects. -/
theorem Batch.completion_touched {now : Timestamp} {output : Option Json}
    (h : (b.completion now output).run b.claims db = some (db', ids)) :
    ids = (db.jobs.filter ((b.completion now output).selects b.claims)).map Job.id := by
  obtain ⟨uuids, huuids, hreply⟩ := Option.bind_eq_some_iff.mp h
  have hselects : (b.completion now output).selects b.claims =
      completeSelects b.name uuids false ((b.completion now output).pairs b.claims uuids) := by
    funext j
    rw [SettleCall.selects, huuids]
    rfl
  cases hcomplete : completeJobs now b.name uuids output false ((b.completion now output).pairs b.claims uuids) db with
  | error e =>
    have hnone : none = some (db', ids) := by
      rw [← hreply]
      exact (congrArg Except.toOption hcomplete).symm
    contradiction
  | ok out =>
    have hout : out = (db', ids) := by
      refine Option.some.inj ?_
      rw [← hreply]
      exact (congrArg Except.toOption hcomplete).symm
    subst hout
    rw [(Database.updateWhere_ok hcomplete).2.2.2, hselects]

/-- When the counts add up, the completion has touched every job no settle recorded. -/
theorem BatchWorld.Kept.accounted (h : w.Kept b) {now : Timestamp} {output : Option Json}
    (hrun : (b.completion now output).run b.claims w.db = some (db', ids))
    (hheld : claimHeld b.jobIds ids.length w.settled = true) :
    ∀ a ∈ b.jobs, uuidText a.id ∉ w.settled →
      ∃ j ∈ w.db.jobs, (b.completion now output).selects b.claims j = true ∧ j.attempt = a := by
  let completed := w.db.jobs.filter ((b.completion now output).selects b.claims)
  let unrecorded := b.jobs.filter fun a => !decide (uuidText a.id ∈ w.settled)
  have haffected : ids.length = (completed.map Job.attempt).length := by
    rw [Batch.completion_touched hrun, List.length_map, List.length_map]
  -- one row for each attempt, so the rows touched are no more than the jobs left
  have hnodup : (completed.map Job.attempt).Nodup := by
    refine List.Nodup.map_on (fun j hj k hk hattempt => ?_) (h.allowed.nodup.filter _)
    obtain ⟨hj, hjsel⟩ := List.mem_filter.mp hj
    obtain ⟨hk, hksel⟩ := List.mem_filter.mp hk
    have hname : j.name = k.name := (Batch.completion_held hjsel).1.trans (Batch.completion_held hksel).1.symm
    exact h.allowed.eq_of_jobKey hj hk (Prod.ext hname (congrArg JobAttempt.id hattempt))
  have hsubset : completed.map Job.attempt ⊆ unrecorded := by
    intro a ha
    obtain ⟨j, hj, rfl⟩ := List.mem_map.mp ha
    exact h.completed (List.mem_filter.mp hj).1 (List.mem_filter.mp hj).2
  have hcount : unrecorded.length ≤ (completed.map Job.attempt).length := by
    have hsplit : b.jobs.length = (b.jobs.filter fun a => decide (uuidText a.id ∈ w.settled)).length + unrecorded.length :=
      List.length_eq_length_filter_add _
    have hjobIds : (b.jobIds.filter fun id => decide (id ∈ w.settled)).length =
        (b.jobs.filter fun a => decide (uuidText a.id ∈ w.settled)).length := by
      rw [Batch.jobIds, List.filter_map, List.length_map]
      rfl
    have hlength : b.jobIds.length = b.jobs.length := List.length_map _
    rw [claimHeld, Bool.not_eq_true', decide_eq_false_iff_not, hjobIds, hlength] at hheld
    omega
  have hperm := (List.subperm_of_subset hnodup hsubset).perm_of_length_le hcount
  intro a ha hnot
  have hmem : a ∈ completed.map Job.attempt :=
    hperm.mem_iff.mpr (List.mem_filter.mpr ⟨ha, by simpa using hnot⟩)
  obtain ⟨j, hj, rfl⟩ := List.mem_map.mp hmem
  exact ⟨j, (List.mem_filter.mp hj).1, (List.mem_filter.mp hj).2, rfl⟩

/-- In every run whose handler settles mind the claims, the transaction commits only if each job of
the batch was settled while active under the claim the worker fetched it with, and is rolled back
otherwise. -/
theorem batch_commits_underClaims {w₀ : BatchWorld} (hstart : w₀.Start)
    (hrun : BatchWorld.Run b (SettleCall.Minds b) w₀ w) (threw : Bool) (now : Timestamp) (output : Option Json) :
    (w.processJobs b threw now output = .committed → ∀ a ∈ b.jobs, w.SettledUnder b now output a) ∧
      ((∃ a ∈ b.jobs, ¬ w.SettledUnder b now output a) → w.processJobs b threw now output = .rolledBack) := by
  have hkept := hrun.kept hstart
  have hcommit : w.processJobs b threw now output = .committed → ∀ a ∈ b.jobs, w.SettledUnder b now output a := by
    intro hcommitted a ha
    rw [BatchWorld.processJobs] at hcommitted
    split at hcommitted
    · contradiction
    split at hcommitted
    · contradiction
    rename_i db' ids hcompletion
    have hheld : claimHeld b.jobIds ids.length w.settled = true := by
      by_contra hnot
      simp [hnot] at hcommitted
    by_cases hrecorded : uuidText a.id ∈ w.settled
    · obtain ⟨j, hj, hjob⟩ := hkept.recorded a ha hrecorded
      exact ⟨j, .inl hj, hjob⟩
    · obtain ⟨j, hj, hsel, rfl⟩ := hkept.accounted hcompletion hheld a ha hrecorded
      obtain ⟨hname, hactive, -⟩ := Batch.completion_held hsel
      exact ⟨j, .inr ⟨hj, hsel⟩, hname, hactive, rfl⟩
  refine ⟨hcommit, fun ⟨a, ha, hnot⟩ => ?_⟩
  cases houtcome : w.processJobs b threw now output with
  | committed => exact absurd (hcommit houtcome a ha) hnot
  | rolledBack => rfl

/-- The job as it was claimed. -/
def claimedJob (id : Uuid) : Job := { waitingJob id with state := .active, startedOn := some 1 }

/-- The theorem at a batch of two: the handler fails one job, the completion takes the other. -/
theorem batch_commits_settledHalf :
    let b : Batch := ⟨"q", [⟨1, 0⟩, ⟨2, 0⟩], by decide⟩
    let w₀ : BatchWorld := { db := { jobs := [claimedJob 1, claimedJob 2] } }
    let w := w₀.call b ⟨.fail ⟨2, fun _ => 0, fun _ => 9, fun _ => none, false⟩, "q", .plain [uuidText 1]⟩
    w.processJobs b false 3 none = .committed ∧ ∀ a ∈ b.jobs, w.SettledUnder b 3 none a := by
  intro b w₀ w
  have hstart : w₀.Start := ⟨⟨by decide, by decide⟩, rfl, rfl⟩
  have hminds : SettleCall.Minds b w₀
      ⟨.fail ⟨2, fun _ => 0, fun _ => 9, fun _ => none, false⟩, "q", .plain [uuidText 1]⟩ :=
    .inl ⟨rfl, [uuidText 1], rfl, by decide +kernel⟩
  have hcommitted : w.processJobs b false 3 none = .committed := by decide +kernel
  exact ⟨hcommitted, (batch_commits_underClaims hstart (.single (.call _ hminds)) false 3 none).1 hcommitted⟩

end Commit

section Unhyphenated

/-- A batch of the one job, as it was first claimed. -/
def firstBatch : Batch := ⟨"q", [⟨1, 0⟩], by decide⟩

/-- The batch's transaction begins. -/
def begun : BatchWorld := { db := (oneJob.play [fetchOne 1]).db }

/-- Meanwhile the job is failed and a second worker claims it. -/
def reclaimedMeanwhile : BatchWorld := { begun with db := (oneJob.play reclaimed).db }

/-- The handler completes the job by its id, written without hyphens. -/
def unhyphenated : SettleCall := ⟨.complete 4 none false, "q", .plain ["00000000000000000000000000000001"]⟩

/-- The spelling is not the one the claims are kept under, so the call is not fenced: it settles the
second worker's attempt, is recorded under the id as the database writes it, and the first worker's
transaction commits though its claim is gone. -/
theorem unhyphenated_commits :
    begun.Start ∧ BatchWorld.Run firstBatch (fun _ _ => True) begun (reclaimedMeanwhile.call firstBatch unhyphenated) ∧
      (reclaimedMeanwhile.call firstBatch unhyphenated).processJobs firstBatch false 5 none = .committed ∧
      ¬ ∀ a ∈ firstBatch.jobs, (reclaimedMeanwhile.call firstBatch unhyphenated).SettledUnder firstBatch 5 none a := by
  have houtside : begun.Outside (oneJob.play reclaimed).db :=
    ⟨⟨by decide, by decide⟩, fun j hj => by simp [begun] at hj⟩
  refine ⟨⟨⟨by decide, by decide⟩, rfl, rfl⟩, ?_, by decide +kernel, fun hall => ?_⟩
  · exact (Relation.ReflTransGen.single (.outside _ houtside)).tail (.call unhyphenated trivial)
  · obtain ⟨j, hj, -, -, hattempt⟩ := hall ⟨1, 0⟩ (by decide)
    have htouched : ∀ j ∈ (reclaimedMeanwhile.call firstBatch unhyphenated).touched, j.attempt ≠ ⟨1, 0⟩ := by
      decide +kernel
    have htable : ∀ j ∈ (reclaimedMeanwhile.call firstBatch unhyphenated).db.jobs, j.attempt ≠ ⟨1, 0⟩ := by
      decide +kernel
    rcases hj with hj | ⟨hj, -⟩
    · exact htouched j hj hattempt
    · exact htable j hj hattempt

end Unhyphenated

end PgBoss
