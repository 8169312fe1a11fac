import PgBoss.Lifecycle.Evolution

/-!
# Runs

A run takes one statement after another, from any tables the constraints allow. Besides the
tables it keeps what no table holds: the claims that were handed out and the policies queues
were created with, the latest first, and every name and id a job has had. Which statements a run may take is a parameter, so that each
result says under which conditions it holds.
-/

namespace PgBoss

open Relational Relation

/-- The tables, with the history a result speaks of. -/
structure World where
  db : Database
  claims : List (JobKey × ℕ) := []
  seen : List JobKey
  created : List (String × QueuePolicy) := []

/-- The claim a fetched row is. -/
def Job.claim (j : Job) : JobKey × ℕ := (j.jobKey, j.retryCount)

/-- The queue a statement creates, with its policy. -/
def Statement.creates (db : Database) : Statement → List (String × QueuePolicy)
  | .createQueue q => if (db.queue q.name).isSome then [] else [(q.name, q.policy)]
  | _ => []

/-- The world after a statement that returned. -/
def World.next (w : World) (s : Statement) (db' : Database) : World where
  db := db'
  claims := (s.claimed w.db).map Job.claim ++ w.claims
  seen := (s.adds w.db).map Job.jobKey ++ w.seen
  created := s.creates w.db ++ w.created

/-- One statement the run may take. A statement that raises takes no step. -/
inductive World.Step (may : World → Statement → Prop) (w : World) : World → Prop
  | exec (s : Statement) (db' : Database) (hmay : may w s) (hrun : s.exec w.db = .ok db') : Step may w (w.next s db')

/-- Any number of statements. -/
abbrev World.Run (may : World → Statement → Prop) : World → World → Prop := ReflTransGen (World.Step may)

/-- A world nothing has happened in. -/
structure World.Start (w : World) : Prop where
  allowed : w.db.Allowed
  claims : w.claims = []
  seen : ∀ j ∈ w.db.jobs, j.jobKey ∈ w.seen

section Invariants

variable {may : World → Statement → Prop} {w₀ w : World}

/-- What every statement a run may take preserves, the run preserves. -/
theorem World.Run.invariant {Inv : World → Prop} (hrun : World.Run may w₀ w) (hstart : Inv w₀)
    (hstep : ∀ w s db', Inv w → may w s → s.exec w.db = .ok db' → Inv (w.next s db')) : Inv w := by
  induction hrun with
  | refl => exact hstart
  | tail _ hlast ih =>
    cases hlast with
    | exec s db' hmay hrun => exact hstep _ s db' ih hmay hrun

/-- The constraints hold throughout a run. -/
theorem World.Run.allowed (hrun : World.Run may w₀ w) (hstart : w₀.db.Allowed) : w.db.Allowed :=
  hrun.invariant hstart fun _ s _ hallowed _ hexec => (s.exec_effect hallowed hexec).allowed

/-- Unless the statement is a restore, a row that is neither claimed nor added was at the same
count, started or not, and active if it is active. -/
theorem row_origin {s : Statement} {db db' : Database} (hdb : db.Allowed) (hrestore : s.isRestore = false)
    (hexec : s.exec db = .ok db') {r : Job} (hr : r ∈ db'.jobs) :
    (∃ j ∈ db.jobs, r.jobKey = j.jobKey ∧ r.retryCount = j.retryCount ∧
        r.startedOn = j.startedOn ∧ (r.state = .active → j.state = .active)) ∨
      (∃ j ∈ db.jobs, ∃ now, r = claimSet now j ∧ r ∈ s.claimed db) ∨ r ∈ s.adds db := by
  cases (s.exec_effect hdb hexec).rows r hr with
  | moved hj hmove =>
    obtain ⟨hcount, hstart, hactive⟩ := hmove.attempt
    exact .inl ⟨_, hj, hmove.jobKey, hcount, hstart, hactive⟩
  | claimed hj _ _ hset hclaimed => exact .inr (.inl ⟨_, hj, _, hset, hclaimed⟩)
  | restored hs => simp [hs, Statement.isRestore] at hrestore
  | added hadd => exact .inr (.inr hadd)

/-- The rows a fetch returns are in the table it leaves, one for each key, and come from waiting,
unblocked rows. -/
theorem claimed_spec {s : Statement} {db db' : Database} (hdb : db.Allowed) (hexec : s.exec db = .ok db') :
    (∀ c ∈ s.claimed db, c ∈ db'.jobs ∧ c.state = .active ∧
        ∃ now, ∃ j ∈ db.jobs, c = claimSet now j ∧ j.state < .active) ∧
      (s.claimed db).Pairwise fun a b => a.jobKey ≠ b.jobKey := by
  cases s with
  | fetchNextJob now rank locked o =>
    obtain ⟨rows, hrun⟩ := map_fst_ok hexec
    simp only [Statement.claimed, hrun]
    refine ⟨fun c hc => ?_, ?_⟩
    · obtain ⟨hmem, j, hj, heligible, -, rfl⟩ := fetchNextJob_claimed hdb hrun hc
      exact ⟨hmem, rfl, now, j, hj, rfl, (fetchEligible_iff.mp heligible).2.1⟩
    · obtain ⟨-, -, -, rfl⟩ := fetchNextJob_ok hrun
      refine List.pairwise_map.mpr (((hdb.consistent.nodup clashes_self).filter _).imp_of_mem ?_)
      intro a b ha hb hab hkey
      exact hab (hdb.eq_of_jobKey (List.mem_filter.mp ha).1 (List.mem_filter.mp hb).1 hkey)
  | _ => exact ⟨by simp [Statement.claimed], by simp [Statement.claimed]⟩

end Invariants

section Played

variable {may : World → Statement → Prop} [∀ w s, Decidable (may w s)]

/-- The world after the statements in turn; one that raises is passed over. -/
def World.play (w : World) : List Statement → World
  | [] => w
  | s :: rest =>
    match s.exec w.db with
    | .ok db' => (w.next s db').play rest
    | .error _ => w.play rest

/-- The run may take each of the statements where it stands. -/
def World.mayPlay (may : World → Statement → Prop) [∀ w s, Decidable (may w s)] (w : World) :
    List Statement → Bool
  | [] => true
  | s :: rest => decide (may w s) &&
    match s.exec w.db with
    | .ok db' => (w.next s db').mayPlay may rest
    | .error _ => w.mayPlay may rest

/-- Playing statements a run may take is a run. -/
theorem World.play_run {statements : List Statement} {w : World} (h : w.mayPlay may statements = true) :
    World.Run may w (w.play statements) := by
  induction statements generalizing w with
  | nil => exact .refl
  | cons s rest ih =>
    simp only [World.mayPlay, Bool.and_eq_true, decide_eq_true_eq] at h
    obtain ⟨hmay, hrest⟩ := h
    simp only [World.play]
    split <;> rename_i hexec <;> simp only [hexec] at hrest
    · exact .head (.exec s _ hmay hexec) (ih hrest)
    · exact ih hrest

end Played

end PgBoss
