import PgBoss.Upsert.Payloads

/-!
# Upserts of one key agree

`job_i13` keeps the created jobs that upserts of a key inserted down to one, and the upsert that
wrote last finds its payload on the jobs it reported: a later writer becomes the last, and other
statements keep payloads. That an upsert does something is another matter. A second update runs
because a job refused the insert, and that job, or the one the update chose, may be gone before
the update has its lock. The upsert then reports nothing, and its payload is lost.
-/

namespace PgBoss

open Relational Relation

namespace UpsertWorld

variable {ι : Type} [DecidableEq ι] {u : Upserts ι} {w w' w₀ : UpsertWorld ι} {i : ι} {m : UpsertMove ι}

/-- A created job of the key that an upsert inserted. -/
def marked (u : Upserts ι) (j : Job) : Bool :=
  decide (j.name = u.name) && decide (j.singletonKey = some u.singletonKey) && decide (j.state = .created) &&
    j.upsertByKey

omit [DecidableEq ι] in
/-- `job_i13` lets in one job of the key. -/
theorem marked_length (hdb : w.db.Allowed) : (w.db.jobs.filter (marked u)).length ≤ 1 := by
  refine hdb.consistent.filter_length_le_one fun a b ha hb => ?_
  simp only [marked, Bool.and_eq_true, decide_eq_true_eq] at ha hb
  have hclash : jobI13.clash a b = true :=
    jobI13_clash.mpr ⟨⟨ha.1.2, ha.2⟩, ⟨hb.1.2, hb.2⟩, ha.1.1.1.trans hb.1.1.1.symm, by simp [ha.1.1.2],
      ha.1.1.2.trans hb.1.1.2.symm⟩
  exact jobs_clash_iff.mpr (by simp [hclash])

/-- What an upsert with a write has reported: the ids of its jobs, which hold its payload. -/
structure Reported (u : Upserts ι) (w : UpsertWorld ι) (i : ι) (keys : List JobKey) : Prop where
  returned : ∃ response refusal, w.phase i = .returned response refusal ∧ response.jobs = keys.map Prod.snd
  seen : ∀ key ∈ keys, key ∈ w.seen
  data : ∀ j ∈ w.db.jobs, j.jobKey ∈ keys → ∀ data, (u.payload i).data = some data → j.payloadData = data

/-- What every run keeps. -/
structure Kept (u : Upserts ι) (w : UpsertWorld ι) : Prop where
  allowed : w.db.Allowed
  seen : ∀ j ∈ w.db.jobs, j.jobKey ∈ w.seen
  reported : ∀ i keys, w.last = some (i, keys) → w.Reported u i keys

omit [DecidableEq ι] in
theorem Start.kept (h : w.Start) : w.Kept u where
  allowed := h.allowed
  seen := h.seen
  reported i keys hlast := by simp [h.last] at hlast

section Step

variable {keys : List JobKey} {now : Timestamp} {drawn : Uuid} {chosen : List JobKey} {db' : Database}
  {jobs : List Uuid} {refusal : Option Refusal}

/-- An upsert that has returned is not where another upsert's step is. -/
theorem returned_update (hlive : ∀ response refusal, w.phase i ≠ .returned response refusal) (phase : UpsertPhase)
    {k : ι} {response : UpsertResponse} {refusal : Option Refusal} (hk : w.phase k = .returned response refusal) :
    Function.update w.phase i phase k = .returned response refusal := by
  have hne : k ≠ i := fun heq => hlive response refusal (heq ▸ hk)
  rw [Function.update_of_ne hne, hk]

omit [DecidableEq ι] in
/-- A report stands while the upsert stays returned and the payloads of its jobs are kept. -/
theorem Reported.keep (h : w.Reported u i keys)
    (hphase : ∀ response refusal, w.phase i = .returned response refusal → w'.phase i = .returned response refusal)
    (hseen : ∀ key ∈ w.seen, key ∈ w'.seen)
    (hrows : ∀ r ∈ w'.db.jobs, r.jobKey ∈ keys → ∃ j ∈ w.db.jobs, j.jobKey = r.jobKey ∧ j.payloadData = r.payloadData) :
    w'.Reported u i keys where
  returned := by
    obtain ⟨response, refusal, hreturned, hjobs⟩ := h.returned
    exact ⟨response, refusal, hphase response refusal hreturned, hjobs⟩
  seen key hkey := hseen key (h.seen key hkey)
  data r hr hkey data hdata := by
    obtain ⟨j, hj, hsame, hjdata⟩ := hrows r hr hkey
    rw [← hjdata]
    exact h.data j hj (hsame ▸ hkey) data hdata

/-- A step that only takes a live upsert to another phase. -/
theorem Kept.setPhase (h : w.Kept u) (hlive : ∀ response refusal, w.phase i ≠ .returned response refusal)
    (phase : UpsertPhase) : (w.setPhase i phase).Kept u where
  allowed := h.allowed
  seen := h.seen
  reported k keys hlast := (h.reported k keys hlast).keep (fun _ _ hk => returned_update hlive phase hk)
    (fun _ hkey => hkey) fun r hr _ => ⟨r, hr, rfl, rfl⟩

omit [DecidableEq ι] in
/-- A statement of another session. -/
theorem Kept.ran {s : Statement} (h : w.Kept u) (hmay : w.May u (.statement s)) (hexec : s.exec w.db = .ok db') :
    (w.ran s db').Kept u where
  allowed := (s.exec_effect h.allowed hexec).allowed
  seen r hr := by
    rcases s.exec_keepsPayloads h.allowed hmay.1 hexec r hr with hadd | ⟨j, hj, hsame, -⟩
    · exact List.mem_append_left _ (List.mem_map_of_mem hadd)
    · exact List.mem_append_right _ (hsame ▸ h.seen j hj)
  reported k keys hlast := by
    refine (h.reported k keys hlast).keep (fun response refusal hk => ?_)
      (fun key hkey => List.mem_append_right _ hkey) fun r hr hkey => ?_
    · simp only [UpsertWorld.ran, hk, UpsertPhase.forget]
    · rcases s.exec_keepsPayloads h.allowed hmay.1 hexec r hr with hadd | hfrom
      · exact absurd ((h.reported k keys hlast).seen _ hkey) (hmay.2 r hadd)
      · exact hfrom

omit [DecidableEq ι] in
/-- The rows after an update's lock: those it did not set, and the written ones with its payload. -/
theorem lock_rows (h : w.db.Allowed)
    (hrun : w.db.updateWhere (stillWaits chosen) (updateSet now (u.payload i)) = .ok (db', jobs)) {r : Job}
    (hr : r ∈ db'.jobs) :
    (r ∈ w.db.jobs ∧ r.jobKey ∉ w.written chosen) ∨
      ∃ j ∈ w.db.jobs, j.jobKey = r.jobKey ∧ j.jobKey ∈ w.written chosen ∧ r = updateSet now (u.payload i) j := by
  rcases (Database.updateWhere_mem hrun).mp hr with ⟨hr, hs⟩ | ⟨j, hj, hs, rfl⟩
  · refine .inl ⟨hr, fun hkey => ?_⟩
    obtain ⟨j, hj, hsame⟩ := List.mem_map.mp hkey
    obtain ⟨hj, hselects⟩ := List.mem_filter.mp hj
    rw [h.eq_of_jobKey hj hr hsame, hs] at hselects
    contradiction
  · exact .inr ⟨j, hj, rfl, List.mem_map_of_mem (List.mem_filter.mpr ⟨hj, hs⟩), rfl⟩

omit [DecidableEq ι] in
/-- An update returns the ids of the jobs it has written. -/
theorem written_ids {set : Job → Job} (hrun : w.db.updateWhere (stillWaits chosen) set = .ok (db', jobs)) :
    jobs = (w.written chosen).map Prod.snd := by
  rw [(Database.updateWhere_ok hrun).2.2.2, written, List.map_map]
  rfl

/-- An update has its locks. -/
theorem Kept.lock (h : w.Kept u) (hphase : w.phase i = .updating refusal chosen)
    (hrun : w.db.updateWhere (stillWaits chosen) (updateSet now (u.payload i)) = .ok (db', jobs)) :
    (w.lock i refusal chosen db' jobs).Kept u where
  allowed := Database.updateWhere_allowed (updateSet now (u.payload i)) h.allowed (fun _ => ⟨rfl, rfl⟩) hrun
  seen r hr := by
    rcases lock_rows h.allowed hrun hr with ⟨hr, -⟩ | ⟨j, hj, hsame, -, -⟩
    · exact h.seen r hr
    · exact hsame ▸ h.seen j hj
  reported k keys hlast := by
    by_cases hnone : w.written chosen = []
    · rw [UpsertWorld.lock, if_pos hnone] at hlast
      refine (h.reported k keys hlast).keep (fun _ _ hk => returned_update (by simp [hphase]) _ hk)
        (fun _ hkey => hkey) fun r hr _ => ?_
      rcases lock_rows h.allowed hrun hr with ⟨hr, -⟩ | ⟨j, -, -, hwritten, -⟩
      · exact ⟨r, hr, rfl, rfl⟩
      · simp [hnone] at hwritten
    · rw [UpsertWorld.lock, if_neg hnone] at hlast
      obtain ⟨rfl, rfl⟩ := Prod.mk.inj (Option.some.inj hlast)
      have hids := written_ids hrun
      have hjobs : jobs ≠ [] := by simpa [hids] using hnone
      have hphase : (w.lock i refusal chosen db' jobs).phase i =
          .returned ⟨jobs, jobs.length, 0⟩ (refusal.map fun refusal => refusal.look w.db) := by
        simp [UpsertWorld.lock, UpsertPhase.updated, hjobs]
      refine ⟨⟨_, _, hphase, hids⟩, fun key hkey => ?_, fun r hr hkey data hdata => ?_⟩
      · obtain ⟨j, hj, rfl⟩ := List.mem_map.mp hkey
        exact h.seen j (List.mem_filter.mp hj).1
      · rcases lock_rows h.allowed hrun hr with ⟨-, hnot⟩ | ⟨j, -, -, -, rfl⟩
        · contradiction
        · simp [Job.payloadData, updateSet, hdata]

omit [DecidableEq ι] in
theorem offered_jobKey : (w.offered u i now drawn).jobKey = (u.name, drawn) := rfl

omit [DecidableEq ι] in
/-- The row an insert offers holds the payload. -/
theorem offered_payloadData {data : Json} (hdata : (u.payload i).data = some data) :
    (w.offered u i now drawn).payloadData = data := by
  have hfilter : (w.offered u i now drawn).data = (some data).filter fun data => decide (data ≠ "null") := by
    rw [← hdata]
    rfl
  rw [Job.payloadData, hfilter, Option.filter_some]
  split
  · rfl
  · rename_i hnull
    have hdata : data = "null" := by simpa using hnull
    exact hdata.symm

/-- The insert goes in. -/
theorem Kept.inserted (h : w.Kept u) (hmay : w.May u (.insert i now drawn))
    (hrun : insertJobs now u.name true [(insertion u i, drawn)] w.db = .ok (db', [w.offered u i now drawn])) :
    (w.inserted i db' [w.offered u i now drawn]).Kept u where
  allowed := (insertJobs_ok hrun).2.2.2.1 h.allowed
  seen r hr := by
    rw [UpsertWorld.inserted, (insertJobs_ok hrun).1] at hr
    rcases List.mem_append.mp hr with hr | hr
    · exact List.mem_append_right _ (h.seen r hr)
    · exact List.mem_append_left _ (List.mem_map_of_mem hr)
  reported k keys hlast := by
    obtain ⟨rfl, rfl⟩ := Prod.mk.inj (Option.some.inj hlast)
    refine ⟨⟨_, _, Function.update_self _ _ _, rfl⟩, fun key hkey => List.mem_append_left _ hkey, ?_⟩
    intro r hr hkey data hdata
    have hkey : r.jobKey = (u.name, drawn) := by simpa [offered_jobKey] using hkey
    rw [UpsertWorld.inserted, (insertJobs_ok hrun).1] at hr
    rcases List.mem_append.mp hr with hr | hr
    · exact absurd (hkey ▸ h.seen r hr) hmay
    · rw [List.mem_singleton.mp hr]
      exact offered_payloadData hdata

/-- One step keeps it all. -/
theorem Kept.step (h : w.Kept u) (hmay : w.May u m) (hexec : w.exec u m = some w') : w'.Kept u := by
  cases m with
  | statement s =>
    obtain ⟨db', hrun, rfl⟩ := exec_statement hexec
    exact h.ran hmay hrun
  | choose i =>
    obtain ⟨refusal, hphase, rfl⟩ := exec_choose hexec
    exact h.setPhase (by simp [hphase]) _
  | lock i now =>
    obtain ⟨refusal, chosen, db', jobs, hphase, hrun, rfl⟩ := exec_lock hexec
    exact h.lock hphase hrun
  | insert i now drawn =>
    obtain ⟨hphase, ⟨db', hrun, rfl⟩ | ⟨conflict, -, -, rfl⟩⟩ := exec_insert hexec
    · exact h.inserted hmay hrun
    · exact h.setPhase (by simp [hphase]) _
  | raise i =>
    obtain ⟨hlive, rfl⟩ := exec_raise hexec
    exact h.setPhase hlive _

end Step

/-- What a run keeps. -/
theorem Run.kept {may : UpsertWorld ι → UpsertMove ι → Prop} (hmay : ∀ w m, may w m → w.May u m)
    (hrun : Run u may w₀ w) (hstart : w₀.Start) : w.Kept u := by
  induction hrun with
  | refl => exact hstart.kept
  | tail _ hlast ih =>
    cases hlast with
    | exec m w' hstep hexec => exact ih.step (hmay _ m hstep) hexec

section Accounted

variable {refusal : Option Refusal} {jobs : List Uuid} {now : Timestamp} {drawn : Uuid}

/-- Only a second update can end an upsert with nothing done. -/
theorem updated_accounted : (UpsertPhase.updated refusal jobs).Accounted ↔
    ∀ r, refusal = some r → r.active = true ∨ jobs ≠ [] := by
  cases refusal with
  | none => cases jobs <;> simp [UpsertPhase.updated, UpsertPhase.Accounted]
  | some r => cases jobs <;> simp [UpsertPhase.updated, UpsertPhase.Accounted]

/-- A step is disturbed exactly when it ends an upsert with nothing done. -/
theorem accounted_step (hexec : w.exec u m = some w') (hbefore : ∀ i, (w.phase i).Accounted) :
    (∀ i, (w'.phase i).Accounted) ↔ w.undisturbed u m = true := by
  have hmoves (i : ι) (phase : UpsertPhase) :
      (∀ k, (Function.update w.phase i phase k).Accounted) ↔ phase.Accounted := by
    rw [Function.forall_update_iff w.phase fun _ phase => phase.Accounted]
    exact and_iff_left fun k _ => hbefore k
  cases m with
  | statement s =>
    obtain ⟨db', -, rfl⟩ := exec_statement hexec
    refine iff_of_true (fun i => ?_) rfl
    have hi := hbefore i
    simp only [ran]
    cases hphase : w.phase i <;> simp_all [UpsertPhase.forget, UpsertPhase.Accounted]
  | choose i =>
    obtain ⟨refusal, hphase, rfl⟩ := exec_choose hexec
    rw [choose, setPhase, hmoves]
    have hchoice : updateChoice u.name ((u.strategy i).target u.singletonKey) w.db = [] ↔
        w.db.jobs.any (waitingWithKey u.name u.singletonKey) = false := updateChoice_eq_nil_iff (u.strategy i)
    by_cases hnone : updateChoice u.name ((u.strategy i).target u.singletonKey) w.db = []
    · rw [if_pos hnone, updated_accounted]
      cases refusal <;> simp [undisturbed, hphase, hchoice.mp hnone]
    · rw [if_neg hnone]
      have hwaits := Bool.not_eq_false _ ▸ mt hchoice.mpr hnone
      cases refusal <;> simp [undisturbed, hphase, hwaits, UpsertPhase.Accounted]
  | lock i now =>
    obtain ⟨refusal, chosen, db', jobs, hphase, hrun, rfl⟩ := exec_lock hexec
    rw [lock, hmoves, updated_accounted]
    have hjobs : jobs ≠ [] ↔ w.db.jobs.any (stillWaits chosen) = true := by
      rw [(Database.updateWhere_ok hrun).2.2.2, Ne, List.map_eq_nil_iff, List.filter_eq_nil_iff]
      simp
    cases refusal with
    | none => simp [undisturbed, hphase]
    | some r => simp [undisturbed, hphase, hjobs]
  | insert i now drawn =>
    obtain ⟨-, ⟨db', hrun, rfl⟩ | ⟨conflict, -, -, rfl⟩⟩ := exec_insert hexec
    · rw [inserted, hmoves]
      simp [UpsertPhase.Accounted, undisturbed]
    · rw [skipped, setPhase, hmoves]
      simp [UpsertPhase.Accounted, undisturbed]
  | raise i =>
    obtain ⟨-, rfl⟩ := exec_raise hexec
    rw [setPhase, hmoves]
    simp [UpsertPhase.Accounted, undisturbed]

omit [DecidableEq ι] in
/-- The job that refuses an insert is one of the key, waiting or active. -/
theorem conflict_waits_or_runs (h : w.Kept u) (hfresh : w.May u (.insert i now drawn)) {conflict : Job}
    (hconflict : conflict ∈ w.db.jobs) (hclash : clashes jobIndexes (w.offered u i now drawn) conflict = true) :
    waitingWithKey u.name u.singletonKey conflict = true ∨ conflict.state = .active := by
  have hname : conflict.name = u.name := (name_eq_of_clashes hclash).symm
  have hslot : conflict.slotKey = u.singletonKey → conflict.singletonKey = some u.singletonKey := by
    intro hslot
    cases hkey : conflict.singletonKey with
    | none =>
      rw [Job.slotKey, hkey] at hslot
      exact absurd hslot.symm u.keyed
    | some key =>
      rw [Job.slotKey, hkey] at hslot
      exact congrArg some hslot
  have hwaits : conflict.state = .created → conflict.singletonKey = some u.singletonKey →
      waitingWithKey u.name u.singletonKey conflict = true := by
    intro hcreated hkey
    simp [waitingWithKey, hname, hcreated, hkey]
  rcases jobs_clash_iff.mp hclash with h' | h' | h' | h' | h' | h' | h' | h'
  · have hkey : conflict.jobKey = (u.name, drawn) := (primaryKey_clash.mp h').symm
    exact absurd (hkey ▸ h.seen conflict hconflict) hfresh
  · obtain ⟨-, ⟨hcreated, -⟩, -, hkey⟩ := jobI1_clash.mp h'
    exact .inl (hwaits hcreated (hslot hkey.symm))
  · cases (jobI2_clash.mp h').1.1
  · obtain ⟨-, -, -, hcreated, hkey⟩ := jobI3_clash.mp h'
    exact .inl (hwaits hcreated.symm (hslot hkey.symm))
  · exact absurd (jobI4_clash.mp h').2.2.1 (by simp [offered, insertRow, insertion, UpdatePayload.toInsert, throttleSlot])
  · obtain ⟨-, ⟨hstate, -⟩, -, hkey⟩ := jobI6_clash.mp h'
    rcases (JobState.le_active _).mp hstate with hcreated | hretry | hactive
    · exact .inl (hwaits hcreated (hslot hkey.symm))
    · exact .inl (by simp [waitingWithKey, hname, hretry, hslot hkey.symm])
    · exact .inr hactive
  · rcases (jobI8_clash.mp h').1.1 with hstate | hstate | hstate <;> cases hstate
  · obtain ⟨-, ⟨hcreated, -⟩, -, -, hkey⟩ := jobI13_clash.mp h'
    exact .inl (hwaits hcreated hkey.symm)

/-- A second update that follows the insert at once is not disturbed. -/
theorem skipped_undisturbed (h : w.Kept u) (hfresh : w.May u (.insert i now drawn)) {conflict : Job}
    (hconflict : conflict ∈ w.db.jobs) (hclash : clashes jobIndexes (w.offered u i now drawn) conflict = true) :
    (w.skipped i conflict).undisturbed u (.choose i) = true := by
  have hphase : (w.skipped i conflict).phase i = .update (some ⟨conflict.jobKey, decide (conflict.state = .active)⟩) :=
    Function.update_self _ _ _
  simp only [undisturbed, hphase, Bool.or_eq_true]
  rcases conflict_waits_or_runs h hfresh hconflict hclash with hwaits | hactive
  · exact .inr (List.any_eq_true.mpr ⟨conflict, hconflict, hwaits⟩)
  · exact .inl (by simp [Refusal.look, hactive])

/-- Nor is an update that gets its locks at once. -/
theorem chosen_undisturbed (refusal : Option Refusal) : (w.choose u i refusal).undisturbed u (.lock i now) = true := by
  by_cases hnone : updateChoice u.name ((u.strategy i).target u.singletonKey) w.db = []
  · have hphase : (w.choose u i refusal).phase i = .updated (refusal.map fun refusal => refusal.look w.db) [] := by
      simp [choose, setPhase, hnone]
    cases refusal <;> simp [undisturbed, hphase, UpsertPhase.updated]
  · have hphase : (w.choose u i refusal).phase i = .updating (refusal.map fun refusal => refusal.look w.db)
        (updateChoice u.name ((u.strategy i).target u.singletonKey) w.db) := by
      simp [choose, setPhase, hnone]
    cases refusal with
    | none => simp [undisturbed, hphase]
    | some r =>
      simp only [undisturbed, hphase, Option.map_some, Bool.or_eq_true]
      obtain ⟨key, hkey⟩ := List.exists_mem_of_ne_nil _ hnone
      obtain ⟨j, hj, rfl⟩ := List.mem_map.mp hkey
      obtain ⟨hj, hselects⟩ := List.mem_filter.mp hj
      refine .inr (List.any_eq_true.mpr ⟨j, hj, ?_⟩)
      simp only [updateSelects, Bool.and_eq_true, decide_eq_true_eq] at hselects
      simp only [stillWaits, hkey, hselects.2, decide_true, Bool.and_self]

end Accounted

/-- In a run whose second updates are not disturbed, upserts of one key agree: one created job of the
key is marked, every upsert that has returned has done something or has found the job that
refused it active, and the waiting jobs the last write reported hold its payload. A disturbed
step ends an upsert with nothing done. -/
theorem upserts_agree (hstart : w₀.Start) (hrun : Run u (fun w m => w.May u m ∧ w.undisturbed u m = true) w₀ w) :
    (w.db.jobs.filter (marked u)).length ≤ 1 ∧
      (∀ i response refusal, w.phase i = .returned response refusal →
        0 < response.updated + response.inserted ∨ refusal.any Refusal.active = true) ∧
      (∀ i keys, w.last = some (i, keys) →
        (∃ response refusal, w.phase i = .returned response refusal ∧ response.jobs = keys.map Prod.snd) ∧
          ∀ j ∈ w.db.jobs, j.jobKey ∈ keys → j.state < .active →
            ∀ data, (u.payload i).data = some data → j.payloadData = data) ∧
      ∀ m w', w.exec u m = some w' → ((∀ i, (w'.phase i).Accounted) ↔ w.undisturbed u m = true) := by
  have hkept : w.Kept u := hrun.kept (fun _ _ hmay => hmay.1) hstart
  have haccounted : ∀ i, (w.phase i).Accounted := by
    clear hkept
    induction hrun with
    | refl => exact fun i => by simp [hstart.phase i, UpsertPhase.Accounted]
    | tail _ hlast ih =>
      cases hlast with
      | exec m w' hmay hexec => exact (accounted_step hexec ih).mpr hmay.2
  refine ⟨marked_length hkept.allowed, fun i response refusal hphase => ?_, fun i keys hlast => ?_,
    fun m w' hexec => accounted_step hexec haccounted⟩
  · have hi := haccounted i
    rwa [hphase] at hi
  · have hreported := hkept.reported i keys hlast
    exact ⟨hreported.returned, fun j hj hkey _ => hreported.data j hj hkey⟩

section Race

/-- Two upserts of one key. -/
def twoUpserts : Upserts Bool where
  name := "article"
  singletonKey := "article-42"
  keyed := by decide
  strategy _ := .newest
  payload second := { data := some (if second then "2" else "1") }
  traceContext _ := none

def noArticle : UpsertWorld Bool where
  db := { queues := [{ queueDefaults with name := "article" }] }
  phase _ := .update none
  seen := []

theorem noArticle_start : noArticle.Start :=
  ⟨⟨consistent_nil, by simp [noArticle]⟩, by simp [noArticle], fun _ => rfl, rfl⟩

/-- Neither sees the other's job, and the second one's insert is refused by the first one's job. -/
def bothMiss : List (UpsertMove Bool) := [.choose false, .choose true, .insert false 0 1, .insert true 0 2]

/-- The theorem where the refused upsert edits that job: the job holds its payload. -/
theorem upserts_agree_bothMiss : ∃ w, Run twoUpserts (fun w m => w.May twoUpserts m ∧ w.undisturbed twoUpserts m = true)
      noArticle w ∧ w.phase true = .returned ⟨[1], 1, 0⟩ (some ⟨("article", 1), false⟩) ∧
    (w.db.jobs.filter (marked twoUpserts)).length ≤ 1 ∧
      ∃ j ∈ w.db.jobs, j.jobKey = ("article", 1) ∧ j.payloadData = "2" := by
  have hplay : ∃ w, noArticle.play twoUpserts (fun w m => w.May twoUpserts m ∧ w.undisturbed twoUpserts m = true)
      (bothMiss ++ [.choose true, .lock true 3]) = some w ∧
      w.phase true = .returned ⟨[1], 1, 0⟩ (some ⟨("article", 1), false⟩) ∧
      w.last = some (true, [("article", 1)]) ∧ ∃ j ∈ w.db.jobs, j.jobKey = ("article", 1) ∧ j.state < .active :=
    ⟨_, rfl, rfl, rfl, by decide⟩
  obtain ⟨w, hw, hphase, hlast, j, hj, hkey, hwaits⟩ := hplay
  have hrun := play_run twoUpserts _ hw
  obtain ⟨hmarked, -, hreported, -⟩ := upserts_agree noArticle_start hrun
  exact ⟨w, hrun, hphase, hmarked, j, hj, hkey, (hreported _ _ hlast).2 j hj (by simp [hkey]) hwaits "2" rfl⟩

/-- The job is cancelled before the refused upsert updates again: it reports nothing done, and has found
no job of the key active. -/
theorem cancelled_losesUpsert : ∃ w, Run twoUpserts (fun w m => w.May twoUpserts m) noArticle w ∧
    w.phase true = .returned ⟨[], 0, 0⟩ (some ⟨("article", 1), false⟩) ∧ ¬(w.phase true).Accounted := by
  have hplay : ∃ w, noArticle.play twoUpserts (fun w m => w.May twoUpserts m)
      (bothMiss ++ [.statement (.cancelJobs 3 "article" [1] none), .choose true]) = some w ∧
      w.phase true = .returned ⟨[], 0, 0⟩ (some ⟨("article", 1), false⟩) := ⟨_, rfl, rfl⟩
  obtain ⟨w, hw, hphase⟩ := hplay
  exact ⟨w, play_run twoUpserts _ hw, hphase, by simp [hphase, UpsertPhase.Accounted]⟩

end Race

end UpsertWorld

end PgBoss
