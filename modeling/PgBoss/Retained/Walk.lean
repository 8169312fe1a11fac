import PgBoss.Plans.Retained

/-!
# A walk over a queue

`#walk` and `#deleteInBatches` carry each batch's cursor into the next and add up what the batches
report, until one comes back without a cursor. With nothing else at work on the table, the totals of a
walk that got as far as its cursor are those of the jobs up to it, and a walk that got to the end has
covered every job.
-/

namespace PgBoss

/-- What the batches of a walk add up to. -/
structure WalkTally where
  retained : ℕ := 0
  deleted : ℕ := 0
  deletedRetained : ℕ := 0
  deriving DecidableEq, Repr

/-- The totals with one more row. -/
def WalkTally.add (tally : WalkTally) (row : WalkRow) : WalkTally where
  retained := tally.retained + row.retained
  deleted := tally.deleted + row.deleted
  deletedRetained := tally.deletedRetained + row.deletedRetained

/-- Which walk: its queue and predicate, its batch size, the queue's watermark, and the one that the sweep counts up
to. -/
structure WalkCall where
  name : String
  kind : WalkDelete
  batchSize : ℕ
  retainedOn : Option Int
  retainedBefore : Option Int := none

/-- A walk between two batches. -/
structure Walk where
  db : Database
  after : Option Uuid := none
  tally : WalkTally := {}

/-- One batch, whose cursor is the next one's. -/
def Walk.Batch (call : WalkCall) (w w' : Walk) : Prop :=
  ∃ now ids, deleteJobsBatch now call.name call.kind w.after call.batchSize w.db = .ok (w'.db, ids) ∧
    w'.after = walkEdge call.name w.after call.batchSize w.db ∧
    w'.tally = w.tally.add
      (walkRow now call.name call.kind call.retainedOn call.retainedBefore w.after call.batchSize w.db)

/-- The batches that a walk goes on from. -/
def Walk.Partly (call : WalkCall) : Walk → Walk → Prop :=
  Relation.ReflTransGen fun w w' => w.Batch call w' ∧ w'.after ≠ none

/-- A walk to the end of the queue. -/
def Walk.Wholly (call : WalkCall) (w w' : Walk) : Prop := ∃ last, w.Partly call last ∧ last.Batch call w' ∧ w'.after = none

namespace Walk

variable {call : WalkCall} {db : Database} {w w' : Walk}

/-- The totals are those of the jobs that the walk has covered. -/
structure Tallied (call : WalkCall) (db : Database) (w : Walk) (covered : Job → Bool) : Prop where
  jobs : w.db.jobs.Sublist db.jobs
  queues : w.db.queues = db.queues
  removed : w.db.jobs.countP (finishedBy call.name call.retainedOn) + w.tally.deletedRetained =
    db.jobs.countP (finishedBy call.name call.retainedOn)
  bounded : w.tally.deletedRetained ≤ w.tally.deleted
  kept : w.tally.retained =
    w.db.jobs.countP fun j => finishedBy call.name call.retainedBefore j && covered j

/-- The jobs up to the cursor. -/
def upTo (after : Option Uuid) (j : Job) : Bool := after.any fun id => decide (j.id ≤ id)

theorem tallied_start (call : WalkCall) (db : Database) : Tallied call db { db } (upTo none) where
  jobs := .refl _
  queues := rfl
  removed := rfl
  bounded := le_rfl
  kept := by
    refine (List.countP_eq_zero.mpr fun j _ => ?_).symm
    simp [upTo]

/-- The keys of a batch are the ones not up to its cursor. -/
theorem all_lt_eq_not_upTo (after : Option Uuid) (j : Job) :
    (after.all fun id => decide (id < j.id)) = !upTo after j := by
  cases after with
  | none => rfl
  | some id => simp only [upTo, Option.all_some, Option.any_some, ← not_le, decide_not]

/-- What a batch covers adds to what was covered before. -/
theorem Tallied.batch (h : Tallied call db w (upTo w.after)) (hbatch : w.Batch call w') :
    Tallied call db w' fun j => w'.after.all fun id => decide (j.id ≤ id) := by
  obtain ⟨now, ids, hdelete, hafter, htally⟩ := hbatch
  obtain ⟨hjobs, hqueues⟩ := deleteJobsBatch_jobs hdelete
  set range := batchRange call.name w.after call.batchSize w.db with hrange
  set removed := fun j => range j && call.kind.predicate now j with hremoved
  have hedge : ∀ j, upTo w.after j = true → (w'.after.all fun id => decide (j.id ≤ id)) = true := by
    intro j hj
    cases hw' : w'.after with
    | none => rfl
    | some edge =>
      have hlt := lt_of_walkEdge (hafter.symm.trans hw')
      obtain ⟨id, hid, hle⟩ := Option.any_eq_true _ _ |>.mp hj
      rw [hid, Option.all_some, decide_eq_true_eq] at hlt
      exact decide_eq_true ((of_decide_eq_true hle).trans hlt.le)
  refine ⟨hjobs ▸ List.filter_sublist.trans h.jobs, hqueues.trans h.queues, ?_, ?_, ?_⟩
  · -- the jobs that the batch takes out leave the count and enter the total
    have hsplit := countP_eq_and_add (l := w.db.jobs) (finishedBy call.name call.retainedOn) removed
    have hout : (walkRow now call.name call.kind call.retainedOn call.retainedBefore w.after call.batchSize
        w.db).deletedRetained = w.db.jobs.countP fun j => finishedBy call.name call.retainedOn j && removed j := by
      simp only [walkRow, List.filter_filter, List.countP_filter, hremoved, hrange]
      exact List.countP_congr fun j _ => by simp only [Bool.and_eq_true]; tauto
    have hleft : w'.db.jobs.countP (finishedBy call.name call.retainedOn) =
        w.db.jobs.countP fun j => finishedBy call.name call.retainedOn j && !removed j := by
      rw [hjobs, List.countP_filter]
    have hbefore := h.removed
    rw [htally, WalkTally.add, hleft]
    simp only [hout]
    omega
  · rw [htally]
    exact Nat.add_le_add h.bounded List.countP_le_length
  · set before := finishedBy call.name call.retainedBefore with hbeforeDef
    have hname : ∀ j, before j = true → j.name = call.name := fun j hj => by
      simp only [hbeforeDef, finishedBy, Bool.and_eq_true, decide_eq_true_eq] at hj
      exact hj.1.1
    -- of the jobs that are left, those covered before were so then, and the others are in the range
    have hsplit := countP_eq_and_add (l := w.db.jobs)
      (fun j => before j && (w'.after.all fun id => decide (j.id ≤ id)) && !removed j) (upTo w.after)
    have hcovered : (w.db.jobs.countP fun j =>
        (before j && (w'.after.all fun id => decide (j.id ≤ id)) && !removed j) && upTo w.after j) = w.tally.retained := by
      rw [h.kept]
      refine List.countP_congr fun j _ => ?_
      have hcursor := hedge j
      have hnotRange : upTo w.after j = true → removed j = false := by
        intro hj
        simp only [hremoved, hrange, batchRange, all_lt_eq_not_upTo, hj, Bool.not_true, Bool.and_false, Bool.false_and]
      simp only [Bool.and_eq_true, Bool.not_eq_true']
      tauto
    have hnew : (w.db.jobs.countP fun j =>
        (before j && (w'.after.all fun id => decide (j.id ≤ id)) && !removed j) && !upTo w.after j) =
        w.db.jobs.countP fun j => (before j && range j) && !call.kind.predicate now j := by
      refine List.countP_congr fun j _ => ?_
      cases hj : before j with
      | false => simp only [Bool.false_and]
      | true =>
        simp only [hremoved, hrange, batchRange, all_lt_eq_not_upTo, ← hafter, hname j hj, decide_true, Bool.true_and]
        cases upTo w.after j <;> cases w'.after.all (fun id => decide (j.id ≤ id)) <;>
          cases call.kind.predicate now j <;> decide
    have hrangeSplit := countP_eq_and_add (l := w.db.jobs) (fun j => before j && range j) (call.kind.predicate now)
    have hrow : (walkRow now call.name call.kind call.retainedOn call.retainedBefore w.after call.batchSize
        w.db).retained = (w.db.jobs.countP fun j => before j && range j) -
          w.db.jobs.countP fun j => (before j && range j) && call.kind.predicate now j := by
      simp only [walkRow, List.filter_filter, List.countP_filter, ← hrange, ← hbeforeDef]
      congr 1
      exact List.countP_congr fun j _ => by simp only [Bool.and_eq_true]; tauto
    rw [hjobs, List.countP_filter, htally, WalkTally.add]
    refine Eq.trans ?_ hsplit.symm
    rw [hcovered, hnew]
    simp only [hrow]
    omega

theorem Partly.tallied (h : Partly call { db } w) : Tallied call db w (upTo w.after) := by
  induction h with
  | refl => exact tallied_start call db
  | tail _ hstep ih =>
    obtain ⟨hbatch, hcursor⟩ := hstep
    have htallied := ih.batch hbatch
    refine ⟨htallied.jobs, htallied.queues, htallied.removed, htallied.bounded,
    htallied.kept.trans (List.countP_congr fun j _ => ?_)⟩
    obtain ⟨edge, hedge⟩ := Option.ne_none_iff_exists'.mp hcursor
    rw [hedge]
    rfl

/-- A walk to the end has counted every job that it left. -/
theorem Wholly.tallied (h : Wholly call { db } w) : Tallied call db w fun _ => true := by
  obtain ⟨last, hpartly, hbatch, hend⟩ := h
  have htallied := hpartly.tallied.batch hbatch
  refine ⟨htallied.jobs, htallied.queues, htallied.removed, htallied.bounded,
    htallied.kept.trans (List.countP_congr fun j _ => ?_)⟩
  rw [hend]
  rfl

end Walk

end PgBoss
