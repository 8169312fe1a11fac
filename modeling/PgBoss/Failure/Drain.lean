import PgBoss.Failure.Redrive

/-!
# Redriving until nothing is left

The multi-statement path runs the steps of `redriveJobs` and leaves the same tables. Each call
moves, fails or leaves each of its candidates, and the ones it leaves wait behind one it failed,
so no candidate of a call is one of the next. A loop of calls therefore ends, unless a row it comes
to lacks the key its queue asks for: that one makes the whole call raise, again and again.
-/

namespace PgBoss

open Relational

variable {o : RedriveOptions} {locked : List JobKey} {db db' : Database} {n : ℕ} {m j r : Job} {moved : List Job}

section Paths

theorem Takes.mem_drawnMoved (h : Takes o locked db moved)
    (hdraws : ((redriveCandidates o locked db).map o.newId).Nodup) : m ∈ drawnMoved o locked db moved ↔ m ∈ moved := by
  rw [drawnMoved, List.mem_filter, decide_eq_true_eq, List.mem_map]
  constructor
  · rintro ⟨hm, k, hk, hid⟩
    exact List.inj_on_of_nodup_map hdraws (h.sub.mem hk) hm hid ▸ hk
  · exact fun hm => ⟨h.sub.mem hm, m, hm, rfl⟩

/-- As many candidates are told to be moved as rows were created. -/
theorem Takes.drawnMoved_length (h : Takes o locked db moved) (hdb : db.Allowed)
    (hdraws : ((redriveCandidates o locked db).map o.newId).Nodup) :
    (drawnMoved o locked db moved).length = moved.length := by
  have hnodup : (redriveCandidates o locked db).Nodup := redriveCandidates_nodup hdb
  exact ((List.perm_ext_iff_of_nodup (hnodup.filter _) (h.sub.nodup hnodup)).mpr fun _ =>
    h.mem_drawnMoved hdraws).length_eq

/-- An update of no row leaves everything as it is. -/
theorem Database.updateWhere_none {select : Job → Bool} (set : Job → Job) (h : ∀ j ∈ db.jobs, select j = false) :
    db.updateWhere select set = .ok (db, []) := by
  have hrows (pre rows : List Job) (h : ∀ j ∈ rows, select j = false) :
      updateScan jobIndexes (fun j => if select j then some (set j) else none) pre rows = some (pre ++ rows) := by
    induction rows generalizing pre with
    | nil => simp [updateScan]
    | cons j rest ih => simp [updateScan, h j List.mem_cons_self, ih _ fun k hk => h k (List.mem_cons_of_mem _ hk)]
  have hfilter : db.jobs.filter select = [] := List.filter_eq_nil_iff.mpr fun j hj => by simp [h j hj]
  simp [Database.updateWhere, updateRows, hrows [] db.jobs h, hfilter]

theorem failRedriveConflicts_nil (o : RedriveOptions) (db : Database) :
    failRedriveConflicts o [] db = .ok (db, []) :=
  Database.updateWhere_none _ fun j _ => by simp [redriveFails, named]

/-- The rows `insertRedrivenJobs` joins the arrays to are the candidates. -/
theorem unnest_candidates (o : RedriveOptions) (locked : List JobKey) (hdb : db.Allowed) :
    (((redriveCandidates o locked db).map Job.id).zip ((redriveCandidates o locked db).map o.newId)).filterMap
        (fun p => (db.jobs.find? (named o.deadLetter [p.1])).map (·, p.2)) =
      (redriveCandidates o locked db).map fun m => (m, o.newId m) := by
  rw [List.zip_map', List.filterMap_map, ← List.filterMap_eq_map']
  refine List.filterMap_congr fun m hm => ?_
  obtain ⟨hmdb, hwhere⟩ := redriveCandidates_mem hm
  have hname : m.name = o.deadLetter := (redriveWhere_spec hwhere).1
  have hsome : (db.jobs.find? (named o.deadLetter [m.id])).isSome = true :=
    List.find?_isSome.mpr ⟨m, hmdb, by simp [named, hname]⟩
  obtain ⟨k, hk⟩ := Option.isSome_iff_exists.mp hsome
  have hnamed : k.name = o.deadLetter ∧ k.id = m.id := by simpa [named] using List.find?_some hk
  have hkm : k = m := hdb.eq_of_jobKey (List.mem_of_find?_eq_some hk) hmdb
    (Prod.ext (hnamed.1.trans hname.symm) hnamed.2)
  simp [hk, hkm]

/-- What the delete of the moved rows leaves, made or left out. -/
theorem deleteMoved_eq (ids : List Uuid) :
    (if ids.isEmpty then db else deleteJobsByIds (ids.map fun id => (o.deadLetter, id)) db) =
      { db with jobs := db.jobs.filter fun j => !named o.deadLetter ids j } := by
  have hnamed (j : Job) : decide (j.jobKey ∈ ids.map fun id => (o.deadLetter, id)) = named o.deadLetter ids j := by
    rw [named, Bool.eq_iff_iff, decide_eq_true_eq, List.mem_map, Bool.and_eq_true, decide_eq_true_eq, decide_eq_true_eq]
    constructor
    · rintro ⟨id, hid, hkey⟩
      obtain ⟨hname, rfl⟩ := Prod.mk.inj hkey
      exact ⟨hname.symm, hid⟩
    · rintro ⟨hname, hid⟩
      exact ⟨j.id, hid, Prod.ext hname.symm rfl⟩
  split
  · rename_i hempty
    have hall : db.jobs.filter (fun j => !named o.deadLetter ids j) = db.jobs :=
      List.filter_eq_self.mpr fun j _ => by simp [named, List.isEmpty_iff.mp hempty]
    rw [hall]
  · simp only [deleteJobsByIds, hnamed]

/-- The update of the refused ones, made or left out. -/
theorem failRefused_eq (ids : List Uuid) :
    (if ids.isEmpty then (.ok (db, n) : Reply ℕ) else (failRedriveConflicts o ids db).map fun out => (out.1, n)) =
      (failRedriveConflicts o ids db).map fun out => (out.1, n) := by
  split
  · rename_i hempty
    rw [List.isEmpty_iff.mp hempty, failRedriveConflicts_nil]
    rfl
  · rfl

/-- Both paths leave the same tables and return the same count. -/
theorem redriveDistributed_eq (hdb : db.Allowed) (hdraws : ((redriveCandidates o [] db).map o.newId).Nodup) :
    redriveDistributed o db = redriveJobs o [] db := by
  obtain ⟨moved, htakes⟩ := redrive_takes o [] db
  have hunnest := unnest_candidates o [] hdb
  cases hrows : selectRedriveCandidates o db with
  | nil =>
    have hnone : redriveCandidates o [] db = [] := by simpa [selectRedriveCandidates] using hrows
    simp [redriveDistributed, hrows, redriveJobs, hnone, redriveInserts, redriveInsert, named, failRedriveConflicts_nil]
  | cons row rest =>
    simp only [redriveDistributed, hrows]
    simp only [← hrows]
    have hids : (selectRedriveCandidates o db).map Prod.fst = (redriveCandidates o [] db).map Job.id := by
      rw [selectRedriveCandidates, List.map_map]
      rfl
    have hnew : (selectRedriveCandidates o db).map Prod.snd = (redriveCandidates o [] db).map o.newId := by
      rw [selectRedriveCandidates, List.map_map]
      rfl
    simp only [insertRedrivenJobs, hids, hnew, hunnest]
    by_cases hkeyed : Keyed o db (redriveCandidates o [] db)
    · have hmoved : ((selectRedriveCandidates o db).filter fun c => decide (c.2 ∈ moved.map o.newId)).map Prod.fst =
          movedIds o (redriveCandidates o [] db) (moved.map o.newId) := by
        rw [selectRedriveCandidates, List.filter_map, List.map_map, movedIds]
        rfl
      have hconflict : ((selectRedriveCandidates o db).filter fun c => decide (c.2 ∉ moved.map o.newId)).map Prod.fst =
          conflictIds o (redriveCandidates o [] db) (moved.map o.newId) := by
        rw [selectRedriveCandidates, List.filter_map, List.map_map, conflictIds]
        rfl
      have hcount : (movedIds o (redriveCandidates o [] db) (moved.map o.newId)).length = moved.length := by
        rw [movedIds, List.length_map]
        exact htakes.drawnMoved_length hdb hdraws
      simp only [htakes.inserts hkeyed]
      rw [hmoved, hconflict, deleteMoved_eq, failRefused_eq, htakes.run hkeyed, hcount]
      rfl
    · rw [redriveJobs_error hkeyed, redriveInserts_drawn, if_pos (by simpa using keyed_iff.not.mp hkeyed)]

end Paths

section Outcome

/-- What a redrive made of its candidates. -/
structure Disposition where
  moved : List Job
  failed : List Job
  left : List Job

/-- The redrive of `db` left `db'` and returned `n`. Each candidate was moved, failed in place or left:
failed or left because of a row it conflicts with, and left only behind an older one of its strict
FIFO key. -/
structure Redrives (o : RedriveOptions) (db db' : Database) (n : ℕ) (d : Disposition) : Prop where
  candidates : (d.moved ++ d.failed ++ d.left).Perm (redriveCandidates o [] db)
  created : (redrivenRows o db d.moved).length = d.moved.length
  conflicting : ∀ m ∈ d.failed ++ d.left, ∃ q, redriveQueue o db m = some q ∧
    ∃ b ∈ db.jobs ++ redrivenRows o db d.moved, clashes jobIndexes (redriveRow o m q) b = true
  behind : ∀ m ∈ d.left, m.policy = some .keyStrictFifo ∧ ∃ old ∈ d.failed, old.policy = some .keyStrictFifo ∧
    old.name = m.name ∧ old.singletonKey = m.singletonKey ∧ createdBefore old m
  rows : db'.jobs.Perm (db.jobs.filter (fun j => decide (j ∉ redriveCandidates o [] db)) ++
    redrivenRows o db d.moved ++ d.failed.map (redriveConflictSet o db) ++ d.left)
  count : n = d.moved.length
  queues : db'.queues = db.queues
  dependencies : db'.dependencies = db.dependencies

/-- The candidates that were not moved, less or only those behind an older one. -/
def refusedOldest (o : RedriveOptions) (locked : List JobKey) (db : Database) (moved : List Job) : List Job :=
  (redriveCandidates o locked db).filter fun m => decide (m ∉ drawnMoved o locked db moved ∧ OldestRefused o locked db moved m)

def refusedBehind (o : RedriveOptions) (locked : List JobKey) (db : Database) (moved : List Job) : List Job :=
  (redriveCandidates o locked db).filter fun m => decide (m ∉ drawnMoved o locked db moved ∧ ¬ OldestRefused o locked db moved m)

theorem mem_refusedOldest : m ∈ refusedOldest o locked db moved ↔
    m ∈ redriveCandidates o locked db ∧ m ∉ drawnMoved o locked db moved ∧ OldestRefused o locked db moved m := by
  simp [refusedOldest]

theorem mem_refusedBehind : m ∈ refusedBehind o locked db moved ↔
    m ∈ redriveCandidates o locked db ∧ m ∉ drawnMoved o locked db moved ∧ ¬ OldestRefused o locked db moved m := by
  simp [refusedBehind]

/-- The refused candidates of a strict FIFO key. -/
def refusedRivals (o : RedriveOptions) (locked : List JobKey) (db : Database) (moved : List Job) (m : Job) : List Job :=
  (redriveCandidates o locked db).filter fun k => decide (k ∉ drawnMoved o locked db moved ∧
    k.policy = some .keyStrictFifo ∧ k.singletonKey = m.singletonKey)

/-- A refused candidate that is not the oldest of its key has the oldest before it. -/
theorem oldest_of_behind (h : m ∈ refusedBehind o locked db moved) : m.policy = some .keyStrictFifo ∧
    ∃ old ∈ refusedOldest o locked db moved, old.policy = some .keyStrictFifo ∧ old.name = m.name ∧
      old.singletonKey = m.singletonKey ∧ createdBefore old m := by
  obtain ⟨hm, hout, hnot⟩ := mem_refusedBehind.mp h
  have hpolicy : m.policy = some .keyStrictFifo := by
    by_contra hpolicy
    exact hnot fun hp => absurd hp hpolicy
  have hrival {k : Job} : k ∈ (refusedRivals o locked db moved m).toFinset ↔ k ∈ redriveCandidates o locked db ∧
      k ∉ drawnMoved o locked db moved ∧ k.policy = some .keyStrictFifo ∧ k.singletonKey = m.singletonKey := by
    simp [refusedRivals]
  obtain ⟨old, hold, hleast⟩ := (refusedRivals o locked db moved m).toFinset.exists_min_image
    (fun k => toLex (k.createdOn, k.id))
    ⟨m, hrival.mpr ⟨hm, hout, hpolicy, rfl⟩⟩
  obtain ⟨hcand, hdrawn, hstrict, hkey⟩ := hrival.mp hold
  have hbefore {k : Job} (hk : k ∈ (refusedRivals o locked db moved m).toFinset) :
      old.createdOn < k.createdOn ∨ old.createdOn = k.createdOn ∧ old.id ≤ k.id := Prod.Lex.toLex_le_toLex.mp (hleast k hk)
  have holdest : OldestRefused o locked db moved old := fun _ k hk hkout hkp hkk =>
    hbefore (hrival.mpr ⟨hk, hkout, hkp, hkk.trans hkey⟩)
  refine ⟨hpolicy, old, mem_refusedOldest.mpr ⟨hcand, hdrawn, holdest⟩, hstrict, ?_, hkey, ?_⟩
  · rw [(redriveWhere_spec (redriveCandidates_mem hcand).2).1, (redriveWhere_spec (redriveCandidates_mem hm).2).1]
  · rcases hbefore (hrival.mpr ⟨hm, hout, hpolicy, rfl⟩) with hlt | ⟨heq, -⟩
    · exact hlt.le
    · exact heq.le

/-- The rows a redrive leaves are all different. -/
theorem Takes.outcome_nodup (h : Takes o locked db moved) (hdb : db.Allowed) :
    (db.jobs.filter (fun j => decide (j ∉ redriveCandidates o locked db)) ++ redrivenRows o db moved ++
      (refusedOldest o locked db moved).map (redriveConflictSet o db) ++ refusedBehind o locked db moved).Nodup := by
  have hnodup : (redriveCandidates o locked db).Nodup := redriveCandidates_nodup hdb
  have hjobs : db.jobs.Nodup := hdb.consistent.nodup clashes_self
  have hcand : ∀ {m}, m ∈ redriveCandidates o locked db → m ∈ db.jobs ∧ m.state < .active := fun hm =>
    ⟨(redriveCandidates_mem hm).1, (redriveWhere_spec (redriveCandidates_mem hm).2).2.1⟩
  have hcreated : (redrivenRows o db moved).Nodup :=
    (List.nodup_append'.mp ((h.consistent hdb.consistent).nodup clashes_self)).2.1
  have hfailed : ((refusedOldest o locked db moved).map (redriveConflictSet o db)).Nodup := by
    refine List.Nodup.map_on (fun a ha b hb hab => ?_) (hnodup.filter _)
    exact hdb.eq_of_jobKey (hcand (mem_refusedOldest.mp ha).1).1 (hcand (mem_refusedOldest.mp hb).1).1
      (Prod.ext (congrArg Job.name hab :) (congrArg Job.id hab :))
  refine List.nodup_append'.mpr ⟨List.nodup_append'.mpr ⟨List.nodup_append'.mpr ⟨hjobs.filter _, hcreated, ?_⟩,
    hfailed, ?_⟩, hnodup.filter _, ?_⟩
  · exact fun r hr hr' => h.created_new hdb hr' (List.mem_filter.mp hr).1
  · rintro r hr hr'
    obtain ⟨j, hj, rfl⟩ := List.mem_map.mp hr'
    rcases List.mem_append.mp hr with hr | hr
    · obtain ⟨hr, hout⟩ := List.mem_filter.mp hr
      have hkey : redriveConflictSet o db j = j := hdb.eq_of_jobKey hr (hcand (mem_refusedOldest.mp hj).1).1 rfl
      rw [hkey] at hout
      exact of_decide_eq_true hout (mem_refusedOldest.mp hj).1
    · obtain ⟨m, -, q, -, hrow⟩ := mem_redrivenRows.mp hr
      exact nomatch (congrArg Job.state hrow :)
  · intro r hr hr'
    have hin := (mem_refusedBehind.mp hr').1
    rcases List.mem_append.mp hr with hr | hr
    · rcases List.mem_append.mp hr with hr | hr
      · exact of_decide_eq_true (List.mem_filter.mp hr).2 hin
      · exact h.created_new hdb hr (hcand hin).1
    · obtain ⟨j, -, rfl⟩ := List.mem_map.mp hr
      exact absurd (hcand hin).2 (of_decide_eq_true rfl)

/-- One call that returns does one of the three to each candidate and nothing else. -/
theorem redriveJobs_redrives (hdb : db.Allowed) (hdraws : ((redriveCandidates o [] db).map o.newId).Nodup)
    (h : redriveJobs o [] db = .ok (db', n)) : ∃ d, Redrives o db db' n d := by
  obtain ⟨moved, htakes, rfl, hqueues, hdeps, hcons, hrows⟩ := redriveJobs_rows hdb h
  have hnodup : (redriveCandidates o [] db).Nodup := redriveCandidates_nodup hdb
  have hdrawn := fun {m} => htakes.mem_drawnMoved (m := m) hdraws
  have hmatching : ∀ {m}, m ∈ redriveCandidates o [] db → m ∈ db.jobs ∧ (redriveQueue o db m).isSome = true := fun hm =>
    ⟨(redriveCandidates_mem hm).1, (mem_redriveMatching.mp (redriveCandidates_matching hm)).2.2⟩
  refine ⟨⟨moved, refusedOldest o [] db moved, refusedBehind o [] db moved⟩, ?_⟩
  constructor
  case candidates =>
    refine (List.perm_ext_iff_of_nodup ?_ hnodup).mpr fun m => ?_
    · refine List.nodup_append'.mpr ⟨List.nodup_append'.mpr ⟨htakes.sub.nodup hnodup, hnodup.filter _, ?_⟩,
        hnodup.filter _, ?_⟩
      · exact fun m hm hm' => (mem_refusedOldest.mp hm').2.1 (hdrawn.mpr hm)
      · intro m hm hm'
        obtain ⟨-, hout, hnot⟩ := mem_refusedBehind.mp hm'
        rcases List.mem_append.mp hm with hm | hm
        · exact hout (hdrawn.mpr hm)
        · exact hnot (mem_refusedOldest.mp hm).2.2
    · rw [List.mem_append, List.mem_append, mem_refusedOldest, mem_refusedBehind, hdrawn]
      have hsub : m ∈ moved → m ∈ redriveCandidates o [] db := fun hm => htakes.sub.mem hm
      tauto
  case created =>
    have hall : ∀ ms : List Job, (∀ m ∈ ms, (redriveQueue o db m).isSome = true) →
        (redrivenRows o db ms).length = ms.length := by
      intro ms hms
      rw [redrivenRows, List.length_filterMap_eq_countP, List.countP_eq_length]
      exact fun m hm => by simpa using hms m hm
    exact hall moved htakes.routed
  case conflicting =>
    intro m hm
    have hrefused : m ∈ redriveCandidates o [] db ∧ m ∉ moved := by
      rcases List.mem_append.mp hm with hm | hm
      · exact ⟨(mem_refusedOldest.mp hm).1, hdrawn.not.mp (mem_refusedOldest.mp hm).2.1⟩
      · exact ⟨(mem_refusedBehind.mp hm).1, hdrawn.not.mp (mem_refusedBehind.mp hm).2.1⟩
    obtain ⟨q, hq⟩ := Option.isSome_iff_exists.mp (hmatching hrefused.1).2
    exact ⟨q, hq, htakes.refused m hrefused.1 hrefused.2 q hq⟩
  case behind => exact fun m hm => oldest_of_behind hm
  case rows =>
    refine (List.perm_ext_iff_of_nodup (hcons.nodup clashes_self) (htakes.outcome_nodup hdb)).mpr fun r => ?_
    rw [hrows, List.mem_append, List.mem_append, List.mem_append, List.mem_filter, decide_eq_true_eq, List.mem_map,
      mem_refusedBehind]
    simp only [mem_refusedOldest, and_assoc, or_assoc, eq_comm (a := r)]
    exact or_left_comm
  case count => rfl
  case queues => exact hqueues
  case dependencies => exact hdeps

end Outcome

section Drain

variable {d : Disposition}

theorem redriveQueue_congr (h : db'.queues = db.queues) (j : Job) : redriveQueue o db' j = redriveQueue o db j := by
  simp only [redriveQueue, funext fun name => show db'.queue name = db.queue name by simp only [Database.queue, h]]

/-- The filters of a redrive but for the rows of the table it reads. -/
theorem redriveWhere_iff_of_keyHolder (h : keyHolder db' j = keyHolder db j) :
    redriveWhere o db' j = redriveWhere o db j := by
  simp only [redriveWhere, h]

/-- The rows of the table before and after. -/
theorem Redrives.mem_iff (h : Redrives o db db' n d) : r ∈ db'.jobs ↔
    (r ∈ db.jobs ∧ r ∉ redriveCandidates o [] db) ∨ r ∈ redrivenRows o db d.moved ∨
      (∃ j ∈ d.failed, r = redriveConflictSet o db j) ∨ r ∈ d.left := by
  simp only [h.rows.mem_iff, List.mem_append, List.mem_filter, List.mem_map, decide_eq_true_eq, or_assoc,
    eq_comm (a := r)]

theorem Redrives.candidate (h : Redrives o db db' n d) :
    m ∈ redriveCandidates o [] db ↔ m ∈ d.moved ∨ m ∈ d.failed ∨ m ∈ d.left := by
  rw [← h.candidates.mem_iff, List.mem_append, List.mem_append, or_assoc]

/-- A key stays held: its holder is no candidate, being held back by itself. -/
theorem Redrives.keyHolder_stays (h : Redrives o db db' n d) (hold : keyHolder db j = true) : keyHolder db' j = true := by
  rw [keyHolder, Bool.and_eq_true, List.any_eq_true] at hold ⊢
  obtain ⟨hpolicy, k, hk, hholds⟩ := hold
  refine ⟨hpolicy, k, h.mem_iff.mpr (.inl ⟨hk, fun hin => ?_⟩), hholds⟩
  obtain ⟨-, hsome, -, hkpolicy, hstate⟩ := of_decide_eq_true hholds
  have hself : keyHolder db k = true := keyHolder_of hk hstate hkpolicy hkpolicy rfl hsome rfl
  rw [(redriveWhere_spec (redriveCandidates_mem hin).2).2.2] at hself
  contradiction

/-- A row that matches after a call matched before it and was no candidate of it. -/
theorem Redrives.matching_before (hdb : db.Allowed) (h : Redrives o db db' n d) (hdest : o.destination ≠ some o.deadLetter)
    (hr : r ∈ redriveMatching o db') : r ∈ redriveMatching o db ∧ r ∉ redriveCandidates o [] db := by
  obtain ⟨hmem, hwhere, hqueue⟩ := mem_redriveMatching.mp hr
  obtain ⟨hname, hwait, hfree⟩ := redriveWhere_spec hwhere
  rcases h.mem_iff.mp hmem with ⟨hr, hout⟩ | hnew | ⟨j, -, rfl⟩ | hleft
  · have hbefore : keyHolder db r = false := Bool.eq_false_iff.mpr fun hold => by
      simp [h.keyHolder_stays hold] at hfree
    rw [redriveWhere_iff_of_keyHolder (hfree.trans hbefore.symm)] at hwhere
    rw [redriveQueue_congr h.queues] at hqueue
    exact ⟨mem_redriveMatching.mpr ⟨hr, hwhere, hqueue⟩, hout⟩
  · -- a created row is in another queue, or has no queue it came from
    obtain ⟨m, -, q, hq, rfl⟩ := mem_redrivenRows.mp hnew
    cases hto : o.destination with
    | none => simp [redriveQueue, hto, redriveRow] at hqueue
    | some name =>
      have hqname : q.name = name := by
        rw [redriveQueue, hto] at hq
        simpa using List.find?_some hq
      exact (hdest (by rw [hto, ← hqname]; exact congrArg some hname)).elim
  · exact absurd hwait (of_decide_eq_true rfl)
  · -- the older row it waits behind is failed by now, and holds the key
    obtain ⟨hpolicy, old, hold, holdp, holdn, holdk, -⟩ := h.behind r hleft
    have hmem' : redriveConflictSet o db old ∈ db'.jobs := h.mem_iff.mpr (.inr (.inr (.inl ⟨old, hold, rfl⟩)))
    have hsome := hdb.singletonKey_isSome (redriveCandidates_mem (h.candidate.mpr (.inr (.inr hleft)))).1 hpolicy
    rw [keyHolder_of hmem' (.inr (.inr rfl)) hpolicy holdp holdn.symm hsome holdk.symm] at hfree
    contradiction

/-- A row without a key goes on matching until it is a candidate. -/
theorem Redrives.matching_stays (h : Redrives o db db' n d) (hm : m ∈ redriveMatching o db)
    (hkey : m.singletonKey = none) (hout : m ∉ redriveCandidates o [] db) : m ∈ redriveMatching o db' := by
  have hfree (db : Database) : keyHolder db m = false := by
    rw [Bool.eq_false_iff, keyHolder, Ne, Bool.and_eq_true, List.any_eq_true]
    rintro ⟨-, k, -, hholds⟩
    obtain ⟨-, hsome, hk, -⟩ := of_decide_eq_true hholds
    simp [hk, hkey] at hsome
  obtain ⟨hmem, hwhere, hqueue⟩ := mem_redriveMatching.mp hm
  refine mem_redriveMatching.mpr ⟨h.mem_iff.mpr (.inl ⟨hmem, hout⟩), ?_, ?_⟩
  · rwa [redriveWhere_iff_of_keyHolder ((hfree db').trans (hfree db).symm)]
  · rwa [redriveQueue_congr h.queues]

/-- The options of another call: its time and the uuids it draws. -/
def RedriveOptions.again (o : RedriveOptions) (now : Timestamp) (newId : Job → Uuid) : RedriveOptions :=
  { o with now, newId }

/-- The tables after a call. -/
def redriveNext (o : RedriveOptions) (db : Database) : Database :=
  match redriveJobs o [] db with
  | .ok (db', _) => db'
  | .error _ => db

/-- A loop of calls, by either path and at whatever times, comes to one that takes no candidate. -/
inductive Drains (o : RedriveOptions) : Database → Prop
  | drained {db : Database} (h : redriveCandidates o [] db = []) : Drains o db
  | call {db : Database}
      (hcall : ∀ now newId, ((redriveCandidates o [] db).map newId).Nodup → ∃ n,
        redriveJobs (o.again now newId) [] db = .ok (redriveNext (o.again now newId) db, n) ∧
        redriveDistributed (o.again now newId) db = .ok (redriveNext (o.again now newId) db, n))
      (hnext : ∀ now newId, ((redriveCandidates o [] db).map newId).Nodup →
        Drains o (redriveNext (o.again now newId) db)) : Drains o db

/-- A call whose candidates have the keys their queues ask for returns, and both paths agree on it. -/
theorem redriveJobs_returns (hdb : db.Allowed) (hdraws : ((redriveCandidates o [] db).map o.newId).Nodup)
    (h : Keyed o db (redriveCandidates o [] db)) : ∃ n,
      redriveJobs o [] db = .ok (redriveNext o db, n) ∧ redriveDistributed o db = .ok (redriveNext o db, n) := by
  obtain ⟨moved, htakes⟩ := redrive_takes o [] db
  obtain ⟨db', ids, hfail⟩ := htakes.total hdb
  have hrun : redriveJobs o [] db = .ok (db', moved.length) := by
    rw [htakes.run h, hfail]
    rfl
  refine ⟨moved.length, ?_, ?_⟩ <;> simp only [redriveDistributed_eq hdb hdraws, redriveNext, hrun]

/-- Every call on keyed rows leaves fewer that match, so the loop ends. -/
theorem drains_of_keyed (hdest : o.destination ≠ some o.deadLetter) (hdb : db.Allowed)
    (hkeyed : Keyed o db (redriveMatching o db)) : Drains o db := by
  induction hsize : (redriveMatching o db).length using Nat.strong_induction_on generalizing db with
  | _ size ih =>
    by_cases hnone : redriveCandidates o [] db = []
    · exact .drained hnone
    have hcall : ∀ now newId, ((redriveCandidates o [] db).map newId).Nodup → ∃ n,
        redriveJobs (o.again now newId) [] db = .ok (redriveNext (o.again now newId) db, n) ∧
        redriveDistributed (o.again now newId) db = .ok (redriveNext (o.again now newId) db, n) := fun now newId hdraws =>
      redriveJobs_returns (o := o.again now newId) hdb hdraws fun m hm => hkeyed m (redriveCandidates_matching hm)
    refine .call hcall fun now newId hdraws => ?_
    obtain ⟨n, hrun, -⟩ := hcall now newId hdraws
    obtain ⟨d, hd⟩ := redriveJobs_redrives (o := o.again now newId) hdb hdraws hrun
    have hdb' := redriveJobs_allowed hdb hrun
    have hbefore : ∀ {r}, r ∈ redriveMatching o (redriveNext (o.again now newId) db) →
        r ∈ redriveMatching o db ∧ r ∉ redriveCandidates o [] db := fun hr =>
      Redrives.matching_before (o := o.again now newId) hdb hd hdest hr
    refine ih _ ?_ hdb' (fun m hm q hq => hkeyed m (hbefore hm).1 q ?_) rfl
    · obtain ⟨c, hc⟩ := List.exists_mem_of_ne_nil _ hnone
      have hfewer : (c :: redriveMatching o (redriveNext (o.again now newId) db)).Nodup :=
        List.nodup_cons.mpr ⟨fun hin => (hbefore hin).2 hc, (hdb'.consistent.nodup clashes_self).filter _⟩
      have hsub : c :: redriveMatching o (redriveNext (o.again now newId) db) ⊆ redriveMatching o db :=
        List.cons_subset.mpr ⟨redriveCandidates_matching hc, fun r hr => (hbefore hr).1⟩
      rw [← hsize]
      exact (List.subperm_of_subset hfewer hsub).length_le
    · rwa [redriveQueue_congr hd.queues] at hq

/-- A loop that ends met no row without the key its queue asks for. -/
theorem keyed_of_drains (hlimit : 1 ≤ o.limit) (hdb : db.Allowed) (h : Drains o db) :
    Keyed o db (redriveMatching o db) := by
  induction h with
  | @drained db hnone =>
    have hempty : redriveMatching o db = [] := by
      rw [redriveCandidates_eq, ← List.length_eq_zero_iff, orderLimit_length] at hnone
      exact List.length_eq_zero_iff.mp (by omega)
    simp [hempty, Keyed]
  | @call db hcall hnext ih =>
    -- the ids the candidates have are uuids the call could draw
    have hdraws : ((redriveCandidates o [] db).map Job.id).Nodup := by
      refine List.Nodup.map_on (fun a ha b hb hab => ?_) (redriveCandidates_nodup hdb)
      have hname := fun {m} (hm : m ∈ redriveCandidates o [] db) => (redriveWhere_spec (redriveCandidates_mem hm).2).1
      exact hdb.eq_of_jobKey (redriveCandidates_mem ha).1 (redriveCandidates_mem hb).1
        (Prod.ext ((hname ha).trans (hname hb).symm) hab)
    obtain ⟨n, hrun, -⟩ := hcall o.now Job.id hdraws
    obtain ⟨d, hd⟩ := redriveJobs_redrives (o := o.again o.now Job.id) hdb hdraws hrun
    intro m hm q hq hpolicy
    by_cases hin : m ∈ redriveCandidates o [] db
    · exact keyed_of_ok hrun m hin q hq hpolicy
    · by_contra hkey
      have hstays := hd.matching_stays hm (by simpa using hkey) hin
      refine hkey (ih o.now Job.id hdraws (redriveJobs_allowed hdb hrun) m hstays q ?_ hpolicy)
      rwa [redriveQueue_congr hd.queues]

end Drain

section Preview

/-- The queues a redrive would send rows to. -/
def redriveDestinations (o : RedriveOptions) (db : Database) (ms : List Job) : List (Option String) :=
  ms.map fun m => (redriveQueue o db m).map Queue.name

/-- A preview reads the destinations of as many matching rows as a redrive takes, and then rows that have none. -/
theorem previewRedrive_eq (o : RedriveOptions) (db : Database) : ∃ k, previewRedrive o db =
    (redriveDestinations o db (redriveMatching o db)).take o.limit ++ List.replicate k none := by
  have hroutable : (redriveDestinations o db (db.jobs.filter (redriveWhere o db))).filter Option.isSome =
      redriveDestinations o db (redriveMatching o db) := by
    simp only [redriveDestinations, redriveMatching, List.filter_map, List.filter_filter, Function.comp_def,
      Option.isSome_map, Bool.and_comm]
  have hnone := List.eq_replicate_of_mem (a := (none : Option String))
    (l := ((redriveDestinations o db (db.jobs.filter (redriveWhere o db))).filter Option.isNone).take o.limit)
    fun b hb => Option.isNone_iff_eq_none.mp (List.mem_filter.mp (List.mem_of_mem_take hb)).2
  exact ⟨_, congrArg₂ (· ++ ·) (congrArg (List.take o.limit) hroutable) hnone⟩

theorem count_reduceOption (names : List (Option String)) (name : String) :
    names.reduceOption.count name = names.count (some name) := by
  induction names with
  | nil => rfl
  | cons head rest ih => cases head <;> simp [List.reduceOption_cons_of_some, List.count_cons, ih]

/-- The counts of a preview's destinations add up to the rows that have one. -/
theorem RedrivePreview.routable_sum (rows : List (Option String)) :
    ((RedrivePreview.ofRows rows).destinations.map Prod.snd).sum = rows.reduceOption.length := by
  simp only [RedrivePreview.ofRows, List.map_map, Function.comp_def, List.map_reverse, List.sum_reverse]
  have hcount : (fun name => rows.count (some name)) = fun name => rows.reduceOption.reverse.count name := by
    funext name
    rw [List.count_reverse, count_reduceOption]
  rw [hcount, List.sum_map_count_dedup_eq_length, List.length_reverse]

theorem redriveDestinations_some {ms : List Job} (h : ∀ m ∈ ms, m ∈ redriveMatching o db) :
    none ∉ redriveDestinations o db ms := by
  intro hnone
  obtain ⟨m, hm, hq⟩ := List.mem_map.mp hnone
  have hqueue := (mem_redriveMatching.mp (h m hm)).2.2
  rw [Option.map_eq_none_iff.mp hq] at hqueue
  contradiction

theorem redriveCandidates_perm (h : (redriveMatching o db).length ≤ o.limit) :
    (redriveCandidates o [] db).Perm (redriveMatching o db) := by
  rw [redriveCandidates_eq, orderLimit, List.take_of_length_le (by simpa [List.length_insertionSort] using h)]
  exact List.perm_insertionSort _ _

/-- A preview counts as routable the rows a redrive would take, and, of those it read, where each would go. -/
theorem previewRedrive_counts (o : RedriveOptions) (db : Database) :
    (RedrivePreview.ofRows (previewRedrive o db)).total =
        (RedrivePreview.ofRows (previewRedrive o db)).unroutable + (redriveCandidates o [] db).length ∧
      ((RedrivePreview.ofRows (previewRedrive o db)).destinations.map Prod.snd).sum =
        (redriveCandidates o [] db).length ∧
      ((redriveMatching o db).length ≤ o.limit → ∀ c ∈ (RedrivePreview.ofRows (previewRedrive o db)).destinations,
        c.2 = (redriveDestinations o db (redriveCandidates o [] db)).count (some c.1)) := by
  obtain ⟨k, hk⟩ := previewRedrive_eq o db
  have hsome : none ∉ (redriveDestinations o db (redriveMatching o db)).take o.limit := fun hin =>
    redriveDestinations_some (fun _ hm => hm) (List.mem_of_mem_take hin)
  have hlength : ((redriveDestinations o db (redriveMatching o db)).take o.limit).length =
      (redriveCandidates o [] db).length := by
    rw [redriveCandidates_eq, orderLimit_length, List.length_take, redriveDestinations, List.length_map]
  refine ⟨?_, ?_, fun huncut c hc => ?_⟩
  · simp only [RedrivePreview.ofRows, hk, List.length_append, List.length_replicate, List.count_append,
      List.count_eq_zero.mpr hsome, List.count_replicate_self, hlength]
    omega
  · rw [RedrivePreview.routable_sum, hk, List.reduceOption_append, List.reduceOption_replicate_none, List.append_nil,
      ← hlength, List.reduceOption, List.length_filterMap_eq_countP, List.countP_eq_length]
    exact fun name hname => by cases name <;> simp_all
  · obtain ⟨name, -, rfl⟩ := List.mem_map.mp hc
    have hwhole : (redriveDestinations o db (redriveMatching o db)).take o.limit =
        redriveDestinations o db (redriveMatching o db) := List.take_of_length_le (by simpa [redriveDestinations] using huncut)
    rw [hk, hwhole, List.count_append, List.count_replicate]
    simpa [redriveDestinations] using (((redriveCandidates_perm huncut).map _).count_eq (some name)).symm

end Preview

section Conservation

/-- What is said of redriving `db`: either path takes the oldest matching rows, moves, fails or leaves
each of them and nothing else, a preview counts them, and a loop into another queue ends. -/
structure RedriveConserves (o : RedriveOptions) (db : Database) : Prop where
  size : (redriveCandidates o [] db).length = min o.limit (redriveMatching o db).length
  oldest : ∀ a ∈ redriveCandidates o [] db, a ∈ redriveMatching o db ∧
    ∀ b ∈ redriveMatching o db, b ∉ redriveCandidates o [] db → createdBefore a b
  call : ∃ db' n d, redriveJobs o [] db = .ok (db', n) ∧ redriveDistributed o db = .ok (db', n) ∧ Redrives o db db' n d
  preview : (RedrivePreview.ofRows (previewRedrive o db)).total =
      (RedrivePreview.ofRows (previewRedrive o db)).unroutable + (redriveCandidates o [] db).length ∧
    ((RedrivePreview.ofRows (previewRedrive o db)).destinations.map Prod.snd).sum =
      (redriveCandidates o [] db).length ∧
    ((redriveMatching o db).length ≤ o.limit → ∀ c ∈ (RedrivePreview.ofRows (previewRedrive o db)).destinations,
      c.2 = (redriveDestinations o db (redriveCandidates o [] db)).count (some c.1))
  drains : o.destination ≠ some o.deadLetter → Drains o db

/-- A redrive does that exactly when no row it comes to lacks the key its strict FIFO queue asks for:
no candidate of the call, and of a loop no row that matches. -/
theorem redrive_conserves_iff (hdb : db.Allowed) (hdraws : ((redriveCandidates o [] db).map o.newId).Nodup)
    (hlimit : 1 ≤ o.limit) : RedriveConserves o db ↔ Keyed o db (redriveCandidates o [] db) ∧
      (o.destination ≠ some o.deadLetter → Keyed o db (redriveMatching o db)) := by
  constructor
  · intro h
    obtain ⟨db', n, d, hrun, -⟩ := h.call
    exact ⟨keyed_of_ok hrun, fun hdest => keyed_of_drains hlimit hdb (h.drains hdest)⟩
  · rintro ⟨hcall, hloop⟩
    obtain ⟨n, hrun, hpath⟩ := redriveJobs_returns hdb hdraws hcall
    obtain ⟨d, hd⟩ := redriveJobs_redrives hdb hdraws hrun
    refine ⟨?_, fun a ha => ⟨redriveCandidates_matching ha, fun b hb hout => ?_⟩, ⟨_, n, d, hrun, hpath, hd⟩,
      previewRedrive_counts o db, fun hdest => drains_of_keyed hdest hdb (hloop hdest)⟩
    · rw [redriveCandidates_eq, orderLimit_length]
    · rw [redriveCandidates_eq] at ha hout
      exact orderLimit_before ha hb hout

/-- A row of the dead letter queue. -/
def waitingDead (id : Uuid) (key : Option String) : Job where
  id := id
  name := "dead"
  startAfter := 0
  createdOn := id.val
  keepUntil := 100
  singletonKey := key
  sourceName := some "mail"

/-- A queue of that policy. -/
def redriveTarget (name : String) (policy : QueuePolicy) : Queue :=
  ⟨name, policy, 2, 0, false, none, 900, 100, 100, none, none, "job_common"⟩

/-- The queues, and three rows to redrive, one of them without a key. -/
def deadLetterRows (policy : QueuePolicy) : Database where
  queues := [redriveTarget "work" policy, redriveTarget "dead" .standard]
  jobs := [waitingDead 1 (some "a"), waitingDead 2 none, waitingDead 3 (some "a")]

/-- The redrive of them all. -/
def redriveDead : RedriveOptions :=
  { deadLetter := "dead", destination := some "work", limit := 1000, now := 50, newId := fun j => j.id + 10 }

/-- One row without a key keeps every row of the dead letter queue where it is. -/
theorem keylessRow_aborts : (deadLetterRows .keyStrictFifo).Allowed ∧
    redriveJobs redriveDead [] (deadLetterRows .keyStrictFifo) = .error .checkViolation ∧
    redriveDistributed redriveDead (deadLetterRows .keyStrictFifo) = .error .checkViolation ∧
    ¬ RedriveConserves redriveDead (deadLetterRows .keyStrictFifo) := by
  refine ⟨⟨by decide, by decide⟩, rfl, rfl, fun h => ?_⟩
  obtain ⟨db', n, d, hrun, -⟩ := h.call
  have herror : redriveJobs redriveDead [] (deadLetterRows .keyStrictFifo) = .error .checkViolation := rfl
  rw [herror] at hrun
  contradiction

/-- The theorem at a queue that allows one waiting job of each key. -/
theorem redrive_conserves_iff_short : RedriveConserves redriveDead (deadLetterRows .short) :=
  (redrive_conserves_iff ⟨by decide, by decide⟩ (by decide) (by decide)).mpr
    ⟨keyed_iff.mpr rfl, fun _ => keyed_iff.mpr rfl⟩

end Conservation

end PgBoss
