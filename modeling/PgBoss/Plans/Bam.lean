import PgBoss.Plans.Stats
import PgBoss.Relational.OrderLimit

/-!
# Background migration commands

Commands that a migration leaves for later are rows of `bam`, and a runner claims one at a time: a
pending one first, else a failed or stale one, and none while another is under way. Staleness is an
age alone, or an age past which no lock of a build is held on the row's table. Instants are
microseconds.
-/

namespace PgBoss

/-- The statuses of a `bam` row. -/
inductive BamStatus
  | pending | inProgress | completed | failed
  deriving DecidableEq, Repr

/-- A row of `bam`. -/
structure BamRow where
  id : Uuid
  version : ℕ
  tableName : String
  command : String
  status : BamStatus := .pending
  error : Option String := none
  createdOn : Int
  startedOn : Option Int := none
  completedOn : Option Int := none
  deriving DecidableEq, Repr

/-- `BAM_STALE_SECONDS`. -/
def bamStaleSeconds : Int := 60 * 60 * 24

/-- `BAM_LIVENESS_GRACE_SECONDS`. -/
def bamLivenessGraceSeconds : Int := 60 * 5

/-- The age below which a row under way is never stale. -/
def bamWindow (useLiveness : Bool) : Int :=
  (if useLiveness then bamLivenessGraceSeconds else bamStaleSeconds) * microsPerSecond

/-- The `stale` predicate, where `live` holds of the tables on which some backend holds a granted
`ShareUpdateExclusiveLock`. -/
def bamStale (useLiveness : Bool) (now : Int) (live : String → Bool) (r : BamRow) : Bool :=
  r.startedOn.any (fun s => decide (s < now - bamWindow useLiveness)) && !(useLiveness && live r.tableName)

/-- `NOT stale`, or `started_on >= ...` without liveness. A null `started_on` makes neither true, but for
`NOT (null AND false)`. -/
def bamNotStale (useLiveness : Bool) (now : Int) (live : String → Bool) (r : BamRow) : Bool :=
  r.startedOn.any (fun s => decide (s ≥ now - bamWindow useLiveness)) || useLiveness && live r.tableName

/-- `afterPredecessors`: every earlier command of the same version on the same table has completed. -/
def afterPredecessors (rows : List BamRow) (c : BamRow) : Bool :=
  rows.all fun p => !(decide (p.version = c.version) && decide (p.tableName = c.tableName) &&
    decide (p.createdOn < c.createdOn) && decide (p.status ≠ .completed))

/-- What a claim may take by its own status. -/
def bamClaimable (useLiveness pendingOnly : Bool) (now : Int) (live : String → Bool) (c : BamRow) : Bool :=
  decide (c.status = .pending) || !pendingOnly &&
    (decide (c.status = .failed) || decide (c.status = .inProgress) && bamStale useLiveness now live c)

/-- The rows that the `candidate` CTE chooses from. -/
def bamCandidates (useLiveness pendingOnly : Bool) (now : Int) (live : String → Bool) (rows : List BamRow) :
    List BamRow :=
  rows.filter fun c => bamClaimable useLiveness pendingOnly now live c && afterPredecessors rows c &&
    !rows.any fun g => decide (g.status = .inProgress) && bamNotStale useLiveness now live g

/-- `c.status != 'pending'`, of which false goes before true. -/
def BamRow.notPending (c : BamRow) : ℕ := if c.status = .pending then 0 else 1

/-- `ORDER BY (c.status != 'pending'), c.created_on`. Of rows that agree on both, the one the plan reads first goes
first. -/
def bamBefore (rank : BamRow → ℕ) (a b : BamRow) : Prop :=
  a.notPending < b.notPending ∨ a.notPending = b.notPending ∧
    (a.createdOn < b.createdOn ∨ a.createdOn = b.createdOn ∧ rank a ≤ rank b)

instance (rank : BamRow → ℕ) : DecidableRel (bamBefore rank) := fun _ _ => inferInstanceAs (Decidable (_ ∨ _))

/-- The `candidate` CTE of `getNextBamCommand`; with liveness it skips the rows that other sessions hold. -/
def bamCandidate (useLiveness pendingOnly : Bool) (now : Int) (live : String → Bool) (rank : BamRow → ℕ)
    (skipped : List Uuid) (rows : List BamRow) : Option BamRow :=
  (Relational.orderLimit (bamBefore rank) 1 ((bamCandidates useLiveness pendingOnly now live rows).filter fun c =>
    !(useLiveness && decide (c.id ∈ skipped)))).head?

/-- A claim as the runner keeps it: the row's id, and what the claim replaced and wrote. -/
structure BamClaim where
  id : Uuid
  priorStatus : BamStatus
  priorStartedOn : Option Int
  claimedStartedOn : Int
  deriving DecidableEq, Repr

/-- The claim that `getNextBamCommand` returns for a row. -/
def bamClaimOf (now : Int) (c : BamRow) : BamClaim := ⟨c.id, c.status, c.startedOn, now⟩

/-- `UPDATE bam ... WHERE id = ...`. -/
def updateBam (id : Uuid) (f : BamRow → BamRow) (rows : List BamRow) : List BamRow :=
  rows.map fun r => if r.id = id then f r else r

/-- `getNextBamCommand`, the update of the row it chose. -/
def claimBamRow (now : Int) (r : BamRow) : BamRow := { r with status := .inProgress, startedOn := some now }

/-- The row still carries the claim: `status = 'in_progress' AND started_on = ...`. -/
def BamClaim.carriedBy (c : BamClaim) (r : BamRow) : Bool :=
  decide (r.status = .inProgress) && decide (r.startedOn = some c.claimedStartedOn)

theorem BamClaim.carriedBy_iff {c : BamClaim} {r : BamRow} :
    c.carriedBy r = true ↔ r.status = .inProgress ∧ r.startedOn = some c.claimedStartedOn := by
  rw [carriedBy, Bool.and_eq_true, decide_eq_true_iff, decide_eq_true_iff]

/-- `releaseBamCommand`. -/
def releaseBamCommand (c : BamClaim) : List BamRow → List BamRow :=
  updateBam c.id fun r =>
    if c.carriedBy r then { r with status := c.priorStatus, startedOn := c.priorStartedOn } else r

/-- `setBamCompleted`. -/
def setBamCompleted (now : Int) (id : Uuid) : List BamRow → List BamRow :=
  updateBam id fun r => { r with status := .completed, completedOn := some now, error := none }

/-- `setBamFailed`. -/
def setBamFailed (now : Int) (id : Uuid) (error : String) : List BamRow → List BamRow :=
  updateBam id fun r => { r with status := .failed, error := some error, completedOn := some now }

variable {id : Uuid} {f : BamRow → BamRow} {rows : List BamRow}

theorem mem_updateBam {r : BamRow} :
    r ∈ updateBam id f rows ↔ ∃ r₀ ∈ rows, (if r₀.id = id then f r₀ else r₀) = r := List.mem_map

/-- An update that leaves the ids leaves them unique. -/
theorem updateBam_ids (hf : ∀ r, (f r).id = r.id) : (updateBam id f rows).map BamRow.id = rows.map BamRow.id := by
  rw [updateBam, List.map_map]
  refine List.map_congr_left fun r _ => ?_
  simp only [Function.comp]
  split
  · exact hf r
  · rfl

instance (rank : BamRow → ℕ) : Std.Total (bamBefore rank) where
  total a b := by
    simp only [bamBefore]
    omega

instance (rank : BamRow → ℕ) : IsTrans BamRow (bamBefore rank) where
  trans a b c hab hbc := by
    simp only [bamBefore] at *
    omega

/-- What a claim takes: a row that may be claimed by its status, behind completed predecessors and no row that is under
way and not stale; and if it is not pending, no pending row may be claimed. -/
theorem bamCandidate_spec {useLiveness pendingOnly : Bool} {now : Int} {live : String → Bool} {rank : BamRow → ℕ}
    {skipped : List Uuid} {c : BamRow} (h : bamCandidate useLiveness pendingOnly now live rank skipped rows = some c) :
    c ∈ rows ∧ bamClaimable useLiveness pendingOnly now live c = true ∧ afterPredecessors rows c = true ∧
      (∀ g ∈ rows, g.status = .inProgress → bamNotStale useLiveness now live g = false) ∧
      (c.status ≠ .pending → ∀ p ∈ bamCandidates useLiveness pendingOnly now live rows, p.status = .pending →
        useLiveness = true ∧ p.id ∈ skipped) := by
  have hmem := List.mem_of_mem_head? h
  have hcandidate := (List.mem_filter.mp (Relational.mem_of_mem_orderLimit hmem)).1
  obtain ⟨hc, hcond⟩ := List.mem_filter.mp hcandidate
  simp only [Bool.and_eq_true, Bool.not_eq_true', List.any_eq_false, decide_eq_true_eq] at hcond
  obtain ⟨⟨hclaimable, hafter⟩, hnone⟩ := hcond
  refine ⟨hc, hclaimable, hafter, fun g hg hstatus => ?_, fun hstatus p hp hpending => ?_⟩
  · have := hnone g hg
    simpa [hstatus] using this
  · by_contra hskip
    -- a pending row that is not skipped would have gone first
    have hkept : p ∈ (bamCandidates useLiveness pendingOnly now live rows).filter fun c =>
        !(useLiveness && decide (c.id ∈ skipped)) := by
      refine List.mem_filter.mpr ⟨hp, ?_⟩
      rw [Bool.not_eq_true', Bool.and_eq_false_iff, decide_eq_false_iff_not, ← Bool.not_eq_true]
      exact not_and_or.mp hskip
    have hbefore := Relational.before_of_orderLimit_one h hkept
    simp only [bamBefore, BamRow.notPending, if_neg hstatus, if_pos hpending] at hbefore
    omega

end PgBoss
