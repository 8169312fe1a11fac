import PgBoss.Plans.Stats

/-!
# The interval claims of a queue row

A queue row carries two claims: `monitor_claim_on`, which a monitor pass takes, and `maintain_on`,
which a maintenance pass takes. `monitor_on` is when the counts were written, and stands in for a
monitor claim that is null. Instants are microseconds, and intervals too.
-/

namespace PgBoss

/-- The two passes that claim queue rows. -/
inductive ClaimKind
  | monitor | maintain
  deriving DecidableEq, Repr

/-- The columns of a queue row that supervising writes. -/
structure SupervisedQueue where
  monitorClaimOn : Option ℤ := none
  monitorOn : Option ℤ := none
  maintainOn : Option ℤ := none
  throughput : Throughput := {}

namespace SupervisedQueue

/-- The claim of a kind. -/
def claimOn (q : SupervisedQueue) : ClaimKind → Option ℤ
  | .monitor => q.monitorClaimOn
  | .maintain => q.maintainOn

/-- `SET monitor_claim_on = ...`, or `SET maintain_on = ...`. -/
def setClaimOn (q : SupervisedQueue) (stamp : Option ℤ) : ClaimKind → SupervisedQueue
  | .monitor => { q with monitorClaimOn := stamp }
  | .maintain => { q with maintainOn := stamp }

/-- `interval '1 week'`. -/
def oneWeekMicros : ℤ := 604800 * microsPerSecond

/-- The stamp a claim is due from: `COALESCE(monitor_claim_on, monitor_on, job_now() - interval '1 week')`, or
`COALESCE(maintain_on, job_now() - interval '1 week')`. -/
def dueFrom (q : SupervisedQueue) (now : ℤ) : ClaimKind → ℤ
  | .monitor => (q.monitorClaimOn.orElse fun _ => q.monitorOn).getD (now - oneWeekMicros)
  | .maintain => q.maintainOn.getD (now - oneWeekMicros)

/-- The `due` CTE of `trySetQueueMonitorTime` and of `trySetQueueTimestamp`. -/
def due (q : SupervisedQueue) (interval now : ℤ) (kind : ClaimKind) : Bool :=
  decide (interval ≤ now - q.dueFrom now kind)

/-- `releaseQueueDeletionTime`: hands the claim back if it is still the one stamped `claimedOn`. -/
def releaseDeletionTime (q : SupervisedQueue) (claimedOn : ℤ) : SupervisedQueue :=
  if q.maintainOn = some claimedOn then { q with maintainOn := none } else q

/-- The `released` CTE of `cacheQueueStats`. -/
def releaseMonitorTime (q : SupervisedQueue) : SupervisedQueue := { q with monitorClaimOn := none }

@[simp] theorem claimOn_setClaimOn (q : SupervisedQueue) (stamp : Option ℤ) (kind : ClaimKind) :
    (q.setClaimOn stamp kind).claimOn kind = stamp := by
  cases kind <;> rfl

theorem claimOn_setClaimOn_of_ne (q : SupervisedQueue) (stamp : Option ℤ) {kind kind' : ClaimKind}
    (h : kind' ≠ kind) : (q.setClaimOn stamp kind).claimOn kind' = q.claimOn kind' := by
  cases kind <;> cases kind' <;> first | rfl | contradiction

@[simp] theorem throughput_setClaimOn (q : SupervisedQueue) (stamp : Option ℤ) (kind : ClaimKind) :
    (q.setClaimOn stamp kind).throughput = q.throughput := by
  cases kind <;> rfl

@[simp] theorem throughput_releaseDeletionTime (q : SupervisedQueue) (claimedOn : ℤ) :
    (q.releaseDeletionTime claimedOn).throughput = q.throughput := by
  rw [releaseDeletionTime]
  split <;> rfl

/-- A row that is due under a claim was claimed an interval ago. -/
theorem claimed_of_due {q : SupervisedQueue} {interval now stamp : ℤ} {kind : ClaimKind}
    (hdue : q.due interval now kind = true) (hclaim : q.claimOn kind = some stamp) : stamp + interval ≤ now := by
  cases kind with
  | monitor =>
    have hclaim : q.monitorClaimOn = some stamp := hclaim
    simp only [due, dueFrom, hclaim, Option.orElse_some, Option.getD_some, decide_eq_true_eq] at hdue
    omega
  | maintain =>
    have hclaim : q.maintainOn = some stamp := hclaim
    simp only [due, dueFrom, hclaim, Option.getD_some, decide_eq_true_eq] at hdue
    omega

/-- A deletion release touches no claim but the one it compares. -/
theorem claimOn_releaseDeletionTime (q : SupervisedQueue) (claimedOn : ℤ) (kind : ClaimKind) :
    (q.releaseDeletionTime claimedOn).claimOn kind =
      if kind = .maintain ∧ q.maintainOn = some claimedOn then none else q.claimOn kind := by
  rw [releaseDeletionTime]
  cases kind <;> split <;> simp_all [claimOn]

end SupervisedQueue

end PgBoss
