import PgBoss.Manager.Redrive
import PgBoss.Relational.OrderLimit

/-!
# What one redrive does

The candidates of a redrive are the oldest matching rows. The insert takes some of them in that
order and refuses the rest, each because of a row that is in the table by then. The rows it
took are deleted, and of the others all are failed in place but the strict FIFO rows behind an
older one of their key, so the update of the refused ones never meets `job_i8`.
-/

namespace PgBoss

open Relational

variable {o : RedriveOptions} {locked : List JobKey} {db db' : Database} {n : ℕ} {m j r : Job}

section Candidates

/-- The matching rows a redrive could move. -/
def redriveMatching (o : RedriveOptions) (db : Database) : List Job :=
  db.jobs.filter fun j => redriveWhere o db j && (redriveQueue o db j).isSome

instance : Std.Total createdBefore := ⟨fun a b => le_total a.createdOn b.createdOn⟩

instance : IsTrans Job createdBefore := ⟨fun _ _ _ hab hbc => le_trans hab hbc⟩

theorem mem_redriveMatching : m ∈ redriveMatching o db ↔
    m ∈ db.jobs ∧ redriveWhere o db m = true ∧ (redriveQueue o db m).isSome = true := by
  simp [redriveMatching]

theorem redriveCandidates_matching (h : m ∈ redriveCandidates o locked db) : m ∈ redriveMatching o db :=
  (List.perm_insertionSort createdBefore _).mem_iff.mp (List.mem_filter.mp (List.mem_of_mem_take h)).1

theorem redriveCandidates_mem (h : m ∈ redriveCandidates o locked db) :
    m ∈ db.jobs ∧ redriveWhere o db m = true := by
  obtain ⟨hm, hwhere, -⟩ := mem_redriveMatching.mp (redriveCandidates_matching h)
  exact ⟨hm, hwhere⟩

/-- A candidate is a waiting row of the dead letter queue whose key nobody holds. -/
theorem redriveWhere_spec (h : redriveWhere o db j = true) :
    j.name = o.deadLetter ∧ j.state < .active ∧ keyHolder db j = false := by
  simp only [redriveWhere, Bool.and_eq_true, decide_eq_true_eq, Bool.not_eq_true'] at h
  exact ⟨h.1.1.1.1.1.1, h.1.1.1.1.1.2, h.1.1.1.1.2⟩

/-- The candidates come oldest first. -/
theorem redriveCandidates_sorted (o : RedriveOptions) (locked : List JobKey) (db : Database) :
    (redriveCandidates o locked db).Pairwise createdBefore :=
  ((List.pairwise_insertionSort createdBefore _).filter _).sublist (List.take_sublist _ _)

theorem redriveCandidates_nodup (hdb : db.Allowed) : (redriveCandidates o locked db).Nodup := by
  refine List.Nodup.sublist (List.take_sublist _ _) (List.Nodup.filter _ ?_)
  rw [(List.perm_insertionSort createdBefore _).nodup_iff]
  exact (hdb.consistent.nodup clashes_self).filter _

/-- Alone, a redrive takes the oldest matching rows up to its limit. -/
theorem redriveCandidates_eq (o : RedriveOptions) (db : Database) :
    redriveCandidates o [] db = orderLimit createdBefore o.limit (redriveMatching o db) := by
  simp [redriveCandidates, redriveMatching, orderLimit]

end Candidates

section Insert

/-- The rows candidates are re-created as. -/
def redrivenRows (o : RedriveOptions) (db : Database) (moved : List Job) : List Job :=
  moved.filterMap fun m => (redriveQueue o db m).map (redriveRow o m)

theorem mem_redrivenRows {moved : List Job} : r ∈ redrivenRows o db moved ↔
    ∃ m ∈ moved, ∃ q, redriveQueue o db m = some q ∧ r = redriveRow o m q := by
  simp [redrivenRows, eq_comm]

theorem redriveNew_drawn (o : RedriveOptions) (db : Database) (m : Job) :
    redriveNew o db (m, o.newId m) = (redriveQueue o db m).map (redriveRow o m) := rfl

/-- The insert takes some of its rows, in order, and refuses each of the others because of a row
in the table by then. -/
theorem redriveInsert_spec (o : RedriveOptions) (db : Database) (rows ms : List Job) :
    ∃ moved, moved.Sublist ms ∧
      redriveInsert o db rows (ms.map fun m => (m, o.newId m)) = (rows ++ redrivenRows o db moved, moved.map o.newId) ∧
      (∀ m ∈ moved, (redriveQueue o db m).isSome = true) ∧
      (∀ m ∈ ms, m ∉ moved → ∀ q, redriveQueue o db m = some q →
        ∃ b ∈ rows ++ redrivenRows o db moved, clashes jobIndexes (redriveRow o m q) b = true) ∧
      (Consistent jobIndexes rows → Consistent jobIndexes (rows ++ redrivenRows o db moved)) := by
  induction ms generalizing rows with
  | nil => exact ⟨[], .slnil, by simp [redriveInsert, redrivenRows], by simp, by simp, by simp [redrivenRows]⟩
  | cons m rest ih =>
    cases hq : redriveQueue o db m with
    | none =>
      obtain ⟨moved, hsub, hrun, hqueue, hrefused, hcons⟩ := ih rows
      refine ⟨moved, hsub.cons m, by simpa [redriveInsert, redriveNew_drawn, hq] using hrun, hqueue, ?_, hcons⟩
      intro k hk hout q hkq
      rcases List.mem_cons.mp hk with rfl | hk
      · rw [hq] at hkq; contradiction
      · exact hrefused k hk hout q hkq
    | some q =>
      cases hfree : refused jobIndexes rows (redriveRow o m q) with
      | true =>
        obtain ⟨moved, hsub, hrun, hqueue, hrefused, hcons⟩ := ih rows
        refine ⟨moved, hsub.cons m, by simpa [redriveInsert, redriveNew_drawn, hq, hfree] using hrun, hqueue, ?_, hcons⟩
        intro k hk hout q' hkq
        rcases List.mem_cons.mp hk with rfl | hk
        · obtain rfl := Option.some.inj (hq.symm.trans hkq)
          obtain ⟨b, hb, hclash⟩ := List.any_eq_true.mp hfree
          exact ⟨b, List.mem_append_left _ hb, hclash⟩
        · exact hrefused k hk hout q' hkq
      | false =>
        obtain ⟨moved, hsub, hrun, hqueue, hrefused, hcons⟩ := ih (rows ++ [redriveRow o m q])
        have hrows : rows ++ redrivenRows o db (m :: moved) = rows ++ [redriveRow o m q] ++ redrivenRows o db moved := by
          simp [redrivenRows, hq]
        refine ⟨m :: moved, hsub.cons_cons m, ?_, ?_, ?_, fun h => hrows ▸ hcons (h.concat hfree)⟩
        · simp [redriveInsert, redriveNew_drawn, hq, hfree, hrun, redrivenRows]
        · intro k hk
          rcases List.mem_cons.mp hk with rfl | hk
          · simp [hq]
          · exact hqueue k hk
        · intro k hk hout q' hkq
          rw [List.mem_cons, not_or] at hout
          rw [hrows]
          exact hrefused k ((List.mem_cons.mp hk).resolve_left hout.1) hout.2 q' hkq

end Insert

section Statement

/-- Each row that goes to a strict FIFO queue has the key such a queue asks for. -/
def Keyed (o : RedriveOptions) (db : Database) (ms : List Job) : Prop :=
  ∀ m ∈ ms, ∀ q, redriveQueue o db m = some q → q.policy = .keyStrictFifo → m.singletonKey.isSome = true

theorem redriveRow_check {q : Queue} : keyStrictFifoCheck (redriveRow o m q) = true ↔
    (q.policy = .keyStrictFifo → m.singletonKey.isSome = true) := by
  cases hkey : m.singletonKey <;> simp [keyStrictFifoCheck, redriveRow, hkey]

theorem keyed_iff {ms : List Job} : Keyed o db ms ↔
    (ms.any fun m => (redriveQueue o db m).any fun q => !keyStrictFifoCheck (redriveRow o m q)) = false := by
  rw [List.any_eq_false]
  refine forall₂_congr fun m _ => ?_
  cases hq : redriveQueue o db m with
  | none => simp
  | some q => simp [← redriveRow_check (o := o)]

/-- The insert of the candidates with the ids drawn for them. -/
theorem redriveInserts_drawn (o : RedriveOptions) (locked : List JobKey) (db : Database) :
    redriveInserts o db ((redriveCandidates o locked db).map fun m => (m, o.newId m)) =
      if (redriveCandidates o locked db).any fun m => (redriveQueue o db m).any fun q =>
        !keyStrictFifoCheck (redriveRow o m q) then .error .checkViolation
      else .ok (redriveInsert o db db.jobs ((redriveCandidates o locked db).map fun m => (m, o.newId m))) := by
  have hsorted : ((redriveCandidates o locked db).map fun m => (m, o.newId m)).insertionSort
      (fun a b => createdBefore a.1 b.1) = (redriveCandidates o locked db).map fun m => (m, o.newId m) :=
    List.Pairwise.insertionSort_eq (List.pairwise_map.mpr (redriveCandidates_sorted o locked db))
  have hany : (((redriveCandidates o locked db).map fun m => (m, o.newId m)).any fun c =>
      (redriveNew o db c).any fun row => !keyStrictFifoCheck row) = (redriveCandidates o locked db).any fun m =>
        (redriveQueue o db m).any fun q => !keyStrictFifoCheck (redriveRow o m q) := by
    simp only [List.any_map, Function.comp_def, redriveNew_drawn, Option.any_map]
  rw [redriveInserts, hany, hsorted]

/-- The ids of the candidates the insert created a row for, and of the others. -/
def movedIds (o : RedriveOptions) (candidates : List Job) (created : List Uuid) : List Uuid :=
  (candidates.filter fun m => decide (o.newId m ∈ created)).map Job.id

def conflictIds (o : RedriveOptions) (candidates : List Job) (created : List Uuid) : List Uuid :=
  (candidates.filter fun m => decide (o.newId m ∉ created)).map Job.id

/-- The tables after the insert and the delete. -/
def lessMoved (o : RedriveOptions) (locked : List JobKey) (db : Database) (moved : List Job) : Database :=
  { db with jobs := (db.jobs ++ redrivenRows o db moved).filter fun j =>
      !named o.deadLetter (movedIds o (redriveCandidates o locked db) (moved.map o.newId)) j }

/-- What the insert of a redrive takes, and how it goes on from there. -/
structure Takes (o : RedriveOptions) (locked : List JobKey) (db : Database) (moved : List Job) : Prop where
  sub : moved.Sublist (redriveCandidates o locked db)
  routed : ∀ m ∈ moved, (redriveQueue o db m).isSome = true
  refused : ∀ m ∈ redriveCandidates o locked db, m ∉ moved → ∀ q, redriveQueue o db m = some q →
    ∃ b ∈ db.jobs ++ redrivenRows o db moved, clashes jobIndexes (redriveRow o m q) b = true
  consistent : Consistent jobIndexes db.jobs → Consistent jobIndexes (db.jobs ++ redrivenRows o db moved)
  inserts : Keyed o db (redriveCandidates o locked db) →
    redriveInserts o db ((redriveCandidates o locked db).map fun m => (m, o.newId m)) =
      .ok (db.jobs ++ redrivenRows o db moved, moved.map o.newId)
  run : Keyed o db (redriveCandidates o locked db) → redriveJobs o locked db =
    (failRedriveConflicts o (conflictIds o (redriveCandidates o locked db) (moved.map o.newId))
      (lessMoved o locked db moved)).map fun out => (out.1, moved.length)

theorem redrive_takes (o : RedriveOptions) (locked : List JobKey) (db : Database) : ∃ moved, Takes o locked db moved := by
  obtain ⟨moved, hsub, hinsert, hrouted, hrefused, hcons⟩ :=
    redriveInsert_spec o db db.jobs (redriveCandidates o locked db)
  have hinserts : Keyed o db (redriveCandidates o locked db) →
      redriveInserts o db ((redriveCandidates o locked db).map fun m => (m, o.newId m)) =
        .ok (db.jobs ++ redrivenRows o db moved, moved.map o.newId) := by
    intro hkeyed
    rw [redriveInserts_drawn, if_neg (by simpa using keyed_iff.mp hkeyed), hinsert]
  refine ⟨moved, hsub, hrouted, hrefused, hcons, hinserts, fun hkeyed => ?_⟩
  simp only [redriveJobs, hinserts hkeyed, List.filter_map, List.map_map, Function.comp_def, List.length_map]
  rw [lessMoved, movedIds, conflictIds]
  cases failRedriveConflicts o _ _ <;> rfl

/-- A redrive of a row that lacks the key its queue asks for raises. -/
theorem redriveJobs_error (h : ¬ Keyed o db (redriveCandidates o locked db)) :
    redriveJobs o locked db = .error .checkViolation := by
  have hany := keyed_iff.not.mp h
  rw [Bool.not_eq_false] at hany
  simp only [redriveJobs, redriveInserts_drawn, hany, if_true]

theorem keyed_of_ok (h : redriveJobs o locked db = .ok (db', n)) : Keyed o db (redriveCandidates o locked db) := by
  by_contra hkeyed
  rw [redriveJobs_error hkeyed] at h
  contradiction

end Statement

section Rows

variable {moved : List Job}

/-- In the tables the insert leaves, candidates are named by their ids alone. -/
theorem Takes.named_iff (h : Takes o locked db moved) (hdb : db.Allowed) {s : List Job}
    (hs : ∀ m ∈ s, m ∈ redriveCandidates o locked db) (hj : j ∈ db.jobs ++ redrivenRows o db moved) :
    named o.deadLetter (s.map Job.id) j = true ↔ j ∈ s := by
  simp only [named, Bool.and_eq_true, decide_eq_true_eq, List.mem_map]
  constructor
  · rintro ⟨hname, m, hm, hid⟩
    obtain ⟨hmdb, hwhere⟩ := redriveCandidates_mem (hs m hm)
    have hkey : m.jobKey = j.jobKey := Prod.ext ((redriveWhere_spec hwhere).1.trans hname.symm) hid
    exact (h.consistent hdb.consistent).eq_of_clashes (List.mem_append_left _ hmdb) hj (clashes_of_jobKey hkey) ▸ hm
  · intro hm
    exact ⟨(redriveWhere_spec (redriveCandidates_mem (hs j hm)).2).1, j, hm, rfl⟩

/-- The candidates whose row was created, by their drawn ids. -/
def drawnMoved (o : RedriveOptions) (locked : List JobKey) (db : Database) (moved : List Job) : List Job :=
  (redriveCandidates o locked db).filter fun m => decide (o.newId m ∈ moved.map o.newId)

/-- Of the candidates that were not created, those of a strict FIFO key are failed oldest first. -/
def OldestRefused (o : RedriveOptions) (locked : List JobKey) (db : Database) (moved : List Job) (j : Job) : Prop :=
  j.policy = some .keyStrictFifo → ∀ m ∈ redriveCandidates o locked db, m ∉ drawnMoved o locked db moved →
    m.policy = some .keyStrictFifo → m.singletonKey = j.singletonKey →
      j.createdOn < m.createdOn ∨ j.createdOn = m.createdOn ∧ j.id ≤ m.id

instance : Decidable (OldestRefused o locked db moved j) := by unfold OldestRefused; infer_instance

theorem Takes.mem_lessMoved (h : Takes o locked db moved) (hdb : db.Allowed) :
    j ∈ (lessMoved o locked db moved).jobs ↔
      (j ∈ db.jobs ∨ j ∈ redrivenRows o db moved) ∧ j ∉ drawnMoved o locked db moved := by
  have hnamed : ∀ j ∈ db.jobs ++ redrivenRows o db moved,
      (named o.deadLetter (movedIds o (redriveCandidates o locked db) (moved.map o.newId)) j = true ↔
        j ∈ drawnMoved o locked db moved) := fun j hj =>
    h.named_iff hdb (fun m hm => (List.mem_filter.mp hm).1) hj
  simp only [lessMoved, List.mem_filter, Bool.not_eq_true', ← List.mem_append]
  constructor
  · rintro ⟨hj, hnot⟩
    exact ⟨hj, fun hin => by simp [(hnamed j hj).mpr hin] at hnot⟩
  · rintro ⟨hj, hnot⟩
    exact ⟨hj, by simpa using (hnamed j hj).not.mpr hnot⟩

theorem redriveConflictFailable_iff {conflicts : List Uuid}
    (hsome : j.policy = some .keyStrictFifo → j.singletonKey.isSome = true) :
    redriveConflictFailable o conflicts db j = true ↔ (j.policy = some .keyStrictFifo → ∀ m ∈ db.jobs,
      named o.deadLetter conflicts m = true → m.policy = some .keyStrictFifo → m.singletonKey = j.singletonKey →
        j.createdOn < m.createdOn ∨ j.createdOn = m.createdOn ∧ j.id ≤ m.id) := by
  by_cases hpolicy : j.policy = some .keyStrictFifo
  · have hkey := Option.isSome_iff_ne_none.mp (hsome hpolicy)
    simp only [redriveConflictFailable, hpolicy, decide_true, Bool.not_true, Bool.false_or, forall_const,
      Bool.or_eq_true, List.all_eq_true, Option.isNone_iff_eq_none, hkey, false_or, Bool.not_eq_true',
      decide_eq_false_iff_not, decide_eq_true_eq]
    refine forall₂_congr fun m _ => ?_
    cases named o.deadLetter conflicts m <;> simp only [Bool.false_eq_true, reduceCtorEq] <;> tauto
  · simp [redriveConflictFailable, hpolicy]

/-- The row is one the update fails: a candidate that was not created, and of a strict FIFO key the
oldest of those. -/
theorem Takes.fails_iff (h : Takes o locked db moved) (hdb : db.Allowed)
    (hj : j ∈ (lessMoved o locked db moved).jobs) :
    redriveFails o (conflictIds o (redriveCandidates o locked db) (moved.map o.newId)) (lessMoved o locked db moved) j =
        true ↔ j ∈ redriveCandidates o locked db ∧ OldestRefused o locked db moved j := by
  have hconflict : ∀ x ∈ (lessMoved o locked db moved).jobs,
      (named o.deadLetter (conflictIds o (redriveCandidates o locked db) (moved.map o.newId)) x = true ↔
        x ∈ redriveCandidates o locked db) := by
    intro x hx
    obtain ⟨hx, hnot⟩ := (h.mem_lessMoved hdb).mp hx
    rw [conflictIds, h.named_iff hdb (fun m hm => (List.mem_filter.mp hm).1) (List.mem_append.mpr hx)]
    refine ⟨fun hin => (List.mem_filter.mp hin).1, fun hin => List.mem_filter.mpr ⟨hin, ?_⟩⟩
    refine decide_eq_true fun hid => hnot (List.mem_filter.mpr ⟨hin, decide_eq_true hid⟩)
  have hsome : j ∈ redriveCandidates o locked db → j.policy = some .keyStrictFifo → j.singletonKey.isSome = true :=
    fun hin => hdb.singletonKey_isSome (redriveCandidates_mem hin).1
  rw [redriveFails, Bool.and_eq_true, Bool.and_eq_true, hconflict j hj]
  constructor
  · rintro ⟨⟨hin, -⟩, hfailable⟩
    refine ⟨hin, fun hpolicy m hm hnot => ?_⟩
    have hmem := (h.mem_lessMoved hdb).mpr ⟨.inl (redriveCandidates_mem hm).1, hnot⟩
    exact (redriveConflictFailable_iff (hsome hin)).mp hfailable hpolicy m hmem ((hconflict m hmem).mpr hm)
  · rintro ⟨hin, holdest⟩
    refine ⟨⟨hin, (mem_redriveMatching.mp (redriveCandidates_matching hin)).2.2⟩, ?_⟩
    refine (redriveConflictFailable_iff (hsome hin)).mpr fun hpolicy m hm hnamed => ?_
    exact holdest hpolicy m ((hconflict m hm).mp hnamed) ((h.mem_lessMoved hdb).mp hm).2

/-- A waiting row that is failed comes to clash only by a strict FIFO key. -/
theorem redriveConflictSet_clash {a b : Job} (hwait : a.state < .active) (hold : ¬ clashes jobIndexes a b = true)
    (hclash : clashes jobIndexes (redriveConflictSet o db a) b = true) :
    (b.state = .active ∨ b.state = .retry ∨ b.state = .failed) ∧ a.policy = some .keyStrictFifo ∧
      b.policy = some .keyStrictFifo ∧ a.name = b.name ∧ a.singletonKey.isSome = true ∧
      a.singletonKey = b.singletonKey := by
  rcases jobs_clash_iff.mp hclash with h | h | h | h | h | h | h | h
  · exact (hold (clashes_of_jobKey (primaryKey_clash.mp h))).elim
  · exact nomatch (jobI1_clash.mp h).1.1
  · exact nomatch (jobI2_clash.mp h).1.1
  · exact absurd (jobI3_clash.mp h).1.1 (of_decide_eq_true rfl)
  · obtain ⟨-, hbs, hsome, hon, hn, hk⟩ := jobI4_clash.mp h
    have hstate : a.state ≠ .cancelled := fun hs => absurd hwait (by rw [hs]; decide)
    exact (hold (jobs_clash_iff.mpr (.inr (.inr (.inr (.inr (.inl (jobI4_clash.mpr
      ⟨hstate, hbs, hsome, hon, hn, hk⟩)))))))).elim
  · exact absurd (jobI6_clash.mp h).1.1 (of_decide_eq_true rfl)
  · obtain ⟨⟨-, hap⟩, ⟨hbs, hbp⟩, hn, hsome, hk⟩ := jobI8_clash.mp h
    exact ⟨hbs, hap, hbp, hn, hsome, hk⟩
  · exact nomatch (jobI13_clash.mp h).1.1

theorem keyHolder_of {a b : Job} (hb : b ∈ db.jobs) (hbs : b.state = .active ∨ b.state = .retry ∨ b.state = .failed)
    (hap : a.policy = some .keyStrictFifo) (hbp : b.policy = some .keyStrictFifo) (hn : a.name = b.name)
    (hsome : a.singletonKey.isSome = true) (hk : a.singletonKey = b.singletonKey) : keyHolder db a = true := by
  rw [keyHolder, Bool.and_eq_true]
  exact ⟨decide_eq_true hap, List.any_eq_true.mpr ⟨b, hb, decide_eq_true ⟨hn.symm, hk ▸ hsome, hk.symm, hbp, hbs⟩⟩⟩

/-- The update of the refused ones raises nothing: a failed row holds no slot but the one of
`job_i8`, whose holders the candidates keep clear of. -/
theorem Takes.total (h : Takes o locked db moved) (hdb : db.Allowed) : ∃ db' ids,
    failRedriveConflicts o (conflictIds o (redriveCandidates o locked db) (moved.map o.newId))
      (lessMoved o locked db moved) = .ok (db', ids) := by
  have hcons : Consistent jobIndexes (lessMoved o locked db moved).jobs := (h.consistent hdb.consistent).filter _
  have hwhere : ∀ {a}, a ∈ redriveCandidates o locked db → a.state < .active ∧ keyHolder db a = false := fun ha =>
    (redriveWhere_spec (redriveCandidates_mem ha).2).2
  have hold : ∀ a ∈ (lessMoved o locked db moved).jobs, a ∈ redriveCandidates o locked db →
      ∀ b ∈ (lessMoved o locked db moved).jobs, b ≠ a →
        ¬ clashes jobIndexes (redriveConflictSet o (lessMoved o locked db moved) a) b = true := by
    intro a ha hcand b hb hne hclash
    obtain ⟨hbs, hap, hbp, hn, hsome, hk⟩ := redriveConflictSet_clash (hwhere hcand).1
      (fun hold => hne (hcons.eq_of_clashes ha hb hold).symm) hclash
    rcases ((h.mem_lessMoved hdb).mp hb).1 with hb | hb
    · have hholder := keyHolder_of hb hbs hap hbp hn hsome hk
      rw [(hwhere hcand).2] at hholder
      contradiction
    · obtain ⟨m, -, q, -, rfl⟩ := mem_redrivenRows.mp hb
      exact absurd hbs (of_decide_eq_true rfl)
  refine Database.updateWhere_total _ (fun a ha hfails b hb hne => ?_) (fun a ha hfails b hb hfails' hne => ?_)
    (hcons.nodup clashes_self)
  · exact Bool.eq_false_iff.mpr (hold a ha ((h.fails_iff hdb ha).mp hfails).1 b hb hne)
  · obtain ⟨hcand, hoa⟩ := (h.fails_iff hdb ha).mp hfails
    obtain ⟨hcand', hob⟩ := (h.fails_iff hdb hb).mp hfails'
    refine Bool.eq_false_iff.mpr fun hclash => ?_
    have hbefore := hold b hb hcand' a ha hne.symm
    rw [clashes_symm] at hbefore
    obtain ⟨-, hap, hbp, hn, -, hk⟩ := redriveConflictSet_clash (hwhere hcand).1 hbefore hclash
    have hab := hoa hap b hcand' ((h.mem_lessMoved hdb).mp hb).2 hbp hk.symm
    have hba := hob hbp a hcand ((h.mem_lessMoved hdb).mp ha).2 hap hk
    have hid : b.id = a.id := by
      rcases hab with hab | ⟨hab, hid⟩ <;> rcases hba with hba | ⟨hba, hid'⟩
      · exact absurd hba (lt_asymm hab)
      · exact absurd hba hab.ne'
      · exact absurd hab hba.ne'
      · exact le_antisymm hid' hid
    exact hne (hcons.eq_of_clashes hb ha (clashes_of_jobKey (Prod.ext hn.symm hid)))

/-- A created row was not in the table. -/
theorem Takes.created_new (h : Takes o locked db moved) (hdb : db.Allowed) (hr : r ∈ redrivenRows o db moved) :
    r ∉ db.jobs := fun hmem =>
  (List.nodup_append.mp ((h.consistent hdb.consistent).nodup clashes_self)).2.2 r hmem r hr rfl

/-- What a redrive that returns leaves: the rows created, the rows that were no candidates, the
refused candidates failed in place, and those behind an older one of their key as they were. -/
theorem redriveJobs_rows (hdb : db.Allowed) (h : redriveJobs o locked db = .ok (db', n)) : ∃ moved,
    Takes o locked db moved ∧ n = moved.length ∧ db'.queues = db.queues ∧ db'.dependencies = db.dependencies ∧
      Consistent jobIndexes db'.jobs ∧
      ∀ r, r ∈ db'.jobs ↔ r ∈ redrivenRows o db moved ∨ (r ∈ db.jobs ∧ r ∉ redriveCandidates o locked db) ∨
        (∃ j ∈ redriveCandidates o locked db, j ∉ drawnMoved o locked db moved ∧ OldestRefused o locked db moved j ∧
          r = redriveConflictSet o db j) ∨
        (r ∈ redriveCandidates o locked db ∧ r ∉ drawnMoved o locked db moved ∧
          ¬ OldestRefused o locked db moved r) := by
  obtain ⟨moved, htakes⟩ := redrive_takes o locked db
  obtain ⟨out, ids, hfail⟩ := htakes.total hdb
  rw [htakes.run (keyed_of_ok h), hfail] at h
  obtain ⟨rfl, rfl⟩ := Prod.mk.inj (Except.ok.inj h)
  have hless := fun {j} => htakes.mem_lessMoved (j := j) hdb
  have hcand : ∀ {j}, j ∈ redriveCandidates o locked db → j ∈ db.jobs := fun hj => (redriveCandidates_mem hj).1
  refine ⟨moved, htakes, rfl, (Database.updateWhere_ok hfail).2.1, (Database.updateWhere_ok hfail).2.2.1, ?_, fun r => ?_⟩
  · simp only [failRedriveConflicts, Database.updateWhere] at hfail
    split at hfail
    · contradiction
    · rename_i jobs hjobs
      obtain ⟨rfl, -⟩ := Prod.mk.inj (Except.ok.inj hfail)
      exact updateRows_consistent ((htakes.consistent hdb.consistent).filter _) hjobs
  · rw [Database.updateWhere_mem hfail]
    constructor
    · rintro (⟨hr, hnot⟩ | ⟨j, hj, hfails, rfl⟩)
      · have hkept := fun hin hold => Bool.eq_false_iff.mp hnot ((htakes.fails_iff hdb hr).mpr ⟨hin, hold⟩)
        obtain ⟨hr | hr, hout⟩ := hless.mp hr
        · by_cases hin : r ∈ redriveCandidates o locked db
          · exact .inr (.inr (.inr ⟨hin, hout, hkept hin⟩))
          · exact .inr (.inl ⟨hr, hin⟩)
        · exact .inl hr
      · obtain ⟨hin, hold⟩ := (htakes.fails_iff hdb hj).mp hfails
        exact .inr (.inr (.inl ⟨j, hin, (hless.mp hj).2, hold, rfl⟩))
    · have hstays : ∀ {r}, r ∈ (lessMoved o locked db moved).jobs →
          ¬ (r ∈ redriveCandidates o locked db ∧ OldestRefused o locked db moved r) →
          redriveFails o (conflictIds o (redriveCandidates o locked db) (moved.map o.newId))
            (lessMoved o locked db moved) r = false := fun hr hnot =>
        Bool.eq_false_iff.mpr ((htakes.fails_iff hdb hr).not.mpr hnot)
      rintro (hr | ⟨hr, hout⟩ | ⟨j, hj, hout, hold, rfl⟩ | ⟨hin, hout, hnot⟩)
      · have hnew := htakes.created_new hdb hr
        have hmem := hless.mpr ⟨.inr hr, fun hin => hnew (hcand (List.mem_filter.mp hin).1)⟩
        exact .inl ⟨hmem, hstays hmem fun hin => hnew (hcand hin.1)⟩
      · have hmem := hless.mpr ⟨.inl hr, fun hin => hout (List.mem_filter.mp hin).1⟩
        exact .inl ⟨hmem, hstays hmem fun hin => hout hin.1⟩
      · have hmem := hless.mpr ⟨.inl (hcand hj), hout⟩
        exact .inr ⟨j, hmem, (htakes.fails_iff hdb hmem).mpr ⟨hj, hold⟩, rfl⟩
      · have hmem := hless.mpr ⟨.inl (hcand hin), hout⟩
        exact .inl ⟨hmem, hstays hmem fun h => hnot h.2⟩

/-- Where a row comes from after a redrive. -/
theorem redriveJobs_from (hdb : db.Allowed) (h : redriveJobs o locked db = .ok (db', n)) (hr : r ∈ db'.jobs) :
    r ∈ db.jobs ∨ (∃ j ∈ db.jobs, j.state < .active ∧ r = redriveConflictSet o db j) ∨
      ∃ m ∈ redriveCandidates o locked db, ∃ q, redriveQueue o db m = some q ∧ r = redriveRow o m q := by
  obtain ⟨moved, htakes, -, -, -, -, hrows⟩ := redriveJobs_rows hdb h
  rcases (hrows r).mp hr with hr | ⟨hr, -⟩ | ⟨j, hj, -, -, rfl⟩ | ⟨hin, -, -⟩
  · obtain ⟨m, hm, q, hq, rfl⟩ := mem_redrivenRows.mp hr
    exact .inr (.inr ⟨m, htakes.sub.mem hm, q, hq, rfl⟩)
  · exact .inl hr
  · obtain ⟨hjdb, hwhere⟩ := redriveCandidates_mem hj
    exact .inr (.inl ⟨j, hjdb, (redriveWhere_spec hwhere).2.1, rfl⟩)
  · exact .inl (redriveCandidates_mem hin).1

/-- A redrive keeps the constraints. -/
theorem redriveJobs_allowed (hdb : db.Allowed) (h : redriveJobs o locked db = .ok (db', n)) : db'.Allowed := by
  obtain ⟨-, -, -, -, -, hcons, -⟩ := redriveJobs_rows hdb h
  refine ⟨hcons, fun r hr => ?_⟩
  rcases redriveJobs_from hdb h hr with hr | ⟨j, hj, -, rfl⟩ | ⟨m, hm, q, hq, rfl⟩
  · exact hdb.check r hr
  · exact hdb.check j hj
  · exact redriveRow_check.mpr (keyed_of_ok h m hm q hq)

end Rows

end PgBoss
