import PgBoss.Lifecycle.Lineage

/-!
# The lineage root

Every row a run leaves carries the id of the first job of its chain that failed into a dead letter
queue, through any number of failures, redrives, retries and expiries. That is the job that was sent
unless a redrive moved it before it ever failed; such a redrive leaves no root. Jobs of different chains
share a root only where two jobs were given one id.
-/

namespace PgBoss

open Relational Relation

namespace LineageWorld

variable {w w₀ : LineageWorld} {s : Statement} {db' : Database}

/-- The job that was sent, of the chain of a row. -/
def firstJob (w : LineageWorld) (r : Job) : JobKey :=
  match w.chain r.jobKey with
  | [] => r.jobKey
  | hop :: _ => hop.job.jobKey

/-- What every run keeps: the columns of each row tell its root and its last hop, and every job of a chain was born
with the hops before it. -/
structure Traced (w : LineageWorld) : Prop where
  allowed : w.db.Allowed
  root : ∀ r ∈ w.db.jobs, r.sourceRootId = rootOf (w.chain r.jobKey)
  source : ∀ r ∈ w.db.jobs, Describes (w.chain r.jobKey).getLast? r
  born : ∀ r ∈ w.db.jobs, (r.jobKey, w.chain r.jobKey) ∈ w.births
  hops : ∀ b ∈ w.births, ∀ before hop after, b.2 = before ++ hop :: after → (hop.job.jobKey, before) ∈ w.births

theorem Start.traced (h : w.Start) : w.Traced where
  allowed := ⟨by simp [h.jobs, Consistent], by simp [h.jobs]⟩
  root := by simp [h.jobs]
  source := by simp [h.jobs]
  born := by simp [h.jobs]
  hops := by simp [h.births]

/-- A row a statement leaves was born by it, or is one there was with its chain and its provenance. -/
theorem next_chain (hdb : w.db.Allowed) (hexec : s.exec w.db = .ok db') {r : Job} (hr : r ∈ db'.jobs) :
    (r, (w.next s db').chain r.jobKey) ∈ w.born s db' ∨
      ∃ j ∈ w.db.jobs, r.jobKey = j.jobKey ∧ KeepsSource j r ∧ (w.next s db').chain r.jobKey = w.chain j.jobKey := by
  have heffect := s.exec_effect hdb hexec
  cases hfind : (w.born s db').find? fun b => decide (b.1.jobKey = r.jobKey) with
  | some b =>
    have hchain : (w.next s db').chain r.jobKey = b.2 := by simp only [next, hfind, Option.map_some, Option.getD_some]
    have hb := List.mem_of_find?_eq_some hfind
    have hkey : b.1.jobKey = r.jobKey := by simpa using List.find?_some hfind
    obtain rfl := heffect.allowed.eq_of_jobKey (of_decide_eq_true (List.mem_filter.mp hb).2) hr hkey
    exact .inl (hchain ▸ hb)
  | none =>
    have hchain : (w.next s db').chain r.jobKey = w.chain r.jobKey := by
      simp only [next, hfind, Option.map_none, Option.getD_none]
    have hkept : ∀ j ∈ w.db.jobs, r.jobKey = j.jobKey → KeepsSource j r → ∃ j ∈ w.db.jobs, r.jobKey = j.jobKey ∧
        KeepsSource j r ∧ (w.next s db').chain r.jobKey = w.chain j.jobKey :=
      fun j hj hkey hsource => ⟨j, hj, hkey, hsource, hchain.trans (congrArg w.chain hkey)⟩
    cases heffect.rows r hr with
    | moved hj hmove => exact .inr (hkept _ hj hmove.jobKey hmove.keepsSource)
    | claimed hj _ _ hset _ => exact .inr (hkept _ hj (hset ▸ rfl) (hset ▸ ⟨rfl, rfl, rfl, rfl, rfl, fun _ _ => rfl⟩))
    | restored _ hj _ hset => exact .inr (hkept _ hj (hset ▸ rfl) (hset ▸ ⟨rfl, rfl, rfl, rfl, rfl, fun _ _ => rfl⟩))
    | added hadd =>
      obtain ⟨c, hc⟩ := @Statement.mem_bears s w.db w.chain r hadd
      have hmem : (r, c) ∈ w.born s db' := List.mem_filter.mpr ⟨hc, decide_eq_true hr⟩
      exact absurd (decide_eq_true rfl) (List.find?_eq_none.mp hfind _ hmem)

/-- What a birth says of the row. -/
theorem Traced.of_born (h : w.Traced) {r : Job} {c : List Hop} (hborn : Born w.db w.chain r c) :
    r.sourceRootId = rootOf c ∧ Describes c.getLast? r ∧
      ∀ before hop after, c = before ++ hop :: after → (hop.job.jobKey, before) ∈ w.births := by
  have hhops : ∀ (j : Job) (last : Hop), j ∈ w.db.jobs → last.job.jobKey = j.jobKey → ∀ before hop after,
      w.chain j.jobKey ++ [last] = before ++ hop :: after → (hop.job.jobKey, before) ∈ w.births := by
    intro j last hj hlast before hop after heq
    rcases List.eq_nil_or_concat after with rfl | ⟨init, x, rfl⟩
    · obtain ⟨rfl, hhop⟩ := List.append_inj' heq rfl
      obtain rfl := List.singleton_inj.mp hhop
      exact hlast ▸ h.born j hj
    · have heq : w.chain j.jobKey ++ [last] = (before ++ hop :: init) ++ [x] := by simpa using heq
      exact h.hops _ (h.born j hj) before hop init (List.append_inj' heq rfl).1
  cases hborn with
  | sent hroot hsource => exact ⟨hroot, hsource, fun before hop after heq => by simp at heq⟩
  | copied i q hj hkey hroot hnull =>
    refine ⟨?_, ?_, hhops _ _ hj hkey⟩
    · rw [rootOf_deadLettered, ← h.root _ hj, ← hroot]
      rfl
    · rw [List.getLast?_concat]
      exact ⟨rfl, rfl, rfl, rfl, hnull, fun _ => rfl⟩
  | moved o q hm =>
    refine ⟨?_, ?_, hhops _ _ hm rfl⟩
    · rw [rootOf_redriven, ← h.root _ hm]
      change Option.or _ _ = _
      cases hroot : Job.sourceRootId _ with
      | none => exact (h.source _ hm).sourceId ((h.root _ hm).symm.trans hroot)
      | some x => rfl
    · rw [List.getLast?_concat]
      exact ⟨rfl, rfl, rfl, rfl⟩

/-- What one statement keeps. -/
theorem Traced.next (h : w.Traced) (hexec : s.exec w.db = .ok db') : (w.next s db').Traced := by
  have hborn : ∀ {r c}, (r, c) ∈ w.born s db' → Born w.db w.chain r c := fun hb =>
    Statement.bears_born h.allowed hexec (List.mem_filter.mp hb).1
  refine ⟨(s.exec_effect h.allowed hexec).allowed, fun r hr => ?_, fun r hr => ?_, fun r hr => ?_, fun b hb => ?_⟩
  · rcases next_chain h.allowed hexec hr with hb | ⟨j, hj, -, hsource, hchain⟩
    · exact (h.of_born (hborn hb)).1
    · rw [hchain, hsource.root, h.root j hj]
  · rcases next_chain h.allowed hexec hr with hb | ⟨j, hj, -, hsource, hchain⟩
    · exact (h.of_born (hborn hb)).2.1
    · rw [hchain]
      exact hsource.describes (h.source j hj)
  · rcases next_chain h.allowed hexec hr with hb | ⟨j, hj, hkey, -, hchain⟩
    · exact List.mem_append_left _ (List.mem_map.mpr ⟨_, hb, rfl⟩)
    · rw [hchain, hkey]
      exact List.mem_append_right _ (h.born j hj)
  · intro before hop after heq
    refine List.mem_append_right _ ?_
    rcases List.mem_append.mp hb with hb | hb
    · obtain ⟨x, hx, rfl⟩ := List.mem_map.mp hb
      exact (h.of_born (hborn hx)).2.2 before hop after heq
    · exact h.hops b hb before hop after heq

/-- What every run keeps. -/
theorem Run.traced (hrun : Run w₀ w) (hstart : w₀.Start) : w.Traced := by
  induction hrun with
  | refl => exact hstart.traced
  | tail _ hlast ih =>
    cases hlast with
    | exec s db' hexec => exact ih.next hexec
    | redriveDistributed o db' n hdraws hexec =>
      rw [redriveDistributed_eq ih.allowed hdraws] at hexec
      have hredrive : (Statement.redriveJobs o []).exec _ = .ok db' := congrArg (Except.map Prod.fst) hexec
      exact ih.next hredrive

/-- Where no id was given twice, the root of a row tells its first job. -/
theorem Traced.firstJob_eq (h : w.Traced) (hids : (w.births.map fun b => b.1.2).Nodup) {r r' : Job} (hr : r ∈ w.db.jobs)
    (hr' : r' ∈ w.db.jobs) {root : Uuid} (hroot : r.sourceRootId = some root) (hroot' : r'.sourceRootId = some root) :
    w.firstJob r = w.firstJob r' := by
  have hsplit : ∀ {r}, r ∈ w.db.jobs → r.sourceRootId = some root → ∃ before hop after,
      w.chain r.jobKey = before ++ hop :: after ∧ hop.job.id = root := fun {r} hr hroot => by
    obtain ⟨failed, hfind, hid⟩ := Option.map_eq_some_iff.mp ((h.root r hr).symm.trans hroot)
    obtain ⟨before, hop, after, heq, hhop, -⟩ := List.findSome?_eq_some_iff.mp hfind
    cases hop with
    | redriven m => cases hhop
    | deadLettered f => exact ⟨before, _, after, heq, Option.some.inj hhop ▸ hid⟩
  obtain ⟨before, hop, after, hchain, hid⟩ := hsplit hr hroot
  obtain ⟨before', hop', after', hchain', hid'⟩ := hsplit hr' hroot'
  have hbirth := h.hops _ (h.born r hr) before hop after hchain
  have hbirth' := h.hops _ (h.born r' hr') before' hop' after' hchain'
  obtain ⟨hkey, rfl⟩ := Prod.mk.inj (List.inj_on_of_nodup_map hids hbirth hbirth' (hid.trans hid'.symm))
  rw [firstJob, firstJob, hchain, hchain']
  cases before with
  | nil => exact hkey
  | cons first rest => rfl

end LineageWorld

section Runs

/-- A queue that does not retry. -/
def onceQueue (name : String) (deadLetter : Option String) : Queue :=
  { queueDefaults with name, policy := .standard, deadLetter, retryLimit := 0 }

/-- A send of one job. -/
def sendJob (name : String) (id : Uuid) : Statement := .insertJobs 1 name false [({ id := some id }, 0)]

/-- A job fails for good, and its copy is given an id. -/
def failJob (name : String) (id copy : Uuid) : Statement :=
  .failJobs ⟨2, fun _ => 0, fun _ => copy, fun _ => some "error", false⟩ (.fail name [id] none)

/-- Everything waiting in a queue is redriven, under one new id. -/
def redriveAll (name : String) (destination : Option String) (id : Uuid) : Statement :=
  .redriveJobs { deadLetter := name, destination, limit := 10, now := 3, newId := fun _ => id } []

/-- Nothing there. -/
def LineageWorld.empty : LineageWorld where
  db := { jobs := [], queues := [], dependencies := [] }
  chain _ := []

theorem LineageWorld.empty_start : LineageWorld.empty.Start := ⟨rfl, rfl⟩

/-- A job is redriven before it ever failed. -/
def redrivenUnfailed : List Statement :=
  [.createQueue (onceQueue "other" none), .createQueue (onceQueue "work" none), sendJob "work" 1,
    redriveAll "work" (some "other") 2]

/-- Two queues are sent a job of one id, and both fail. -/
def sharedId : List Statement :=
  [.createQueue (onceQueue "dead" none), .createQueue (onceQueue "work" (some "dead")),
    .createQueue (onceQueue "other" (some "dead")), sendJob "work" 1, sendJob "other" 1, failJob "work" 1 8,
    failJob "other" 1 9]

/-- A job that was redriven before it failed has no root, and two jobs of one id in two queues share theirs. -/
theorem lineage_root_parts : LineageWorld.empty.Start ∧
    (LineageWorld.Run .empty (LineageWorld.empty.play redrivenUnfailed) ∧
      ∃ r ∈ (LineageWorld.empty.play redrivenUnfailed).db.jobs,
        (LineageWorld.empty.play redrivenUnfailed).chain r.jobKey ≠ [] ∧
        (LineageWorld.empty.play redrivenUnfailed).firstJob r = ("work", 1) ∧ r.sourceRootId = none) ∧
    (LineageWorld.Run .empty (LineageWorld.empty.play sharedId) ∧
      ∃ r ∈ (LineageWorld.empty.play sharedId).db.jobs, ∃ r' ∈ (LineageWorld.empty.play sharedId).db.jobs,
        (LineageWorld.empty.play sharedId).firstJob r ≠ (LineageWorld.empty.play sharedId).firstJob r' ∧
        r.sourceRootId = some 1 ∧ r'.sourceRootId = some 1) :=
  ⟨LineageWorld.empty_start, ⟨LineageWorld.play_run _ _, by decide⟩, LineageWorld.play_run _ _, by decide⟩

/-- A job that fails, is redriven and fails again. -/
def failedTwice : List Statement :=
  [.createQueue (onceQueue "dead" none), .createQueue (onceQueue "work" (some "dead")), sendJob "work" 1,
    failJob "work" 1 8, redriveAll "dead" none 2, failJob "work" 2 9]

end Runs

/-- The lineage root of every row of a run, and what its columns say of the job that failed into it. -/
theorem lineage_root {w₀ w : LineageWorld} (hstart : w₀.Start) (hrun : LineageWorld.Run w₀ w) :
    (∀ r ∈ w.db.jobs,
      r.sourceRootId = rootOf (w.chain r.jobKey) ∧
      (w.chain r.jobKey = [] → r.sourceRootId = none) ∧
      (∀ hop rest, w.chain r.jobKey = hop :: rest → (hop.job.jobKey, []) ∈ w.births ∧
        ∀ failed, hop = .deadLettered failed → r.sourceRootId = some failed.id) ∧
      ∀ before failed, w.chain r.jobKey = before ++ [.deadLettered failed] →
        r.sourceName = some failed.name ∧ r.sourceId = some failed.id ∧ r.sourceCreatedOn = some failed.createdOn ∧
          r.sourceRetryCount = some failed.retryCount ∧ (failed.output ≠ none → r.sourceOutput = failed.output)) ∧
    ((w.births.map fun b => b.1.2).Nodup → ∀ r ∈ w.db.jobs, ∀ r' ∈ w.db.jobs, ∀ root,
      r.sourceRootId = some root → r'.sourceRootId = some root → w.firstJob r = w.firstJob r') := by
  have h := hrun.traced hstart
  refine ⟨fun r hr => ⟨h.root r hr, fun hnil => ?_, fun hop rest hchain => ⟨?_, ?_⟩, fun before failed hchain => ?_⟩,
    fun hids r hr r' hr' root hroot hroot' => h.firstJob_eq hids hr hr' hroot hroot'⟩
  · rw [h.root r hr, hnil, rootOf_nil]
  · exact h.hops _ (h.born r hr) [] hop rest hchain
  · rintro failed rfl
    rw [h.root r hr, hchain]
    rfl
  · have hsource := h.source r hr
    rw [hchain, List.getLast?_concat] at hsource
    obtain ⟨hname, hid, hcreated, hcount, -, houtput⟩ := hsource
    exact ⟨hname, hid, hcreated, hcount, houtput⟩

/-- The theorem at that run: the second copy still names the job that was sent. -/
theorem lineage_root_second : ∃ r ∈ (LineageWorld.empty.play failedTwice).db.jobs,
    r.name = "dead" ∧ r.sourceId = some 2 ∧ r.sourceRootId = some 1 := by
  obtain ⟨hrows, -⟩ := lineage_root LineageWorld.empty_start (LineageWorld.play_run .empty failedTwice)
  have hrow : ∃ r ∈ (LineageWorld.empty.play failedTwice).db.jobs, r.name = "dead" ∧ r.sourceId = some 2 ∧
      rootOf ((LineageWorld.empty.play failedTwice).chain r.jobKey) = some 1 := by decide
  obtain ⟨r, hr, hname, hsource, hroot⟩ := hrow
  exact ⟨r, hr, hname, hsource, (hrows r hr).1.trans hroot⟩

end PgBoss
