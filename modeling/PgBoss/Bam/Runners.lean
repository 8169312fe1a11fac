import PgBoss.Plans.Bam

/-!
# Runners of background migration commands

Any number of runners claim rows of `bam` one after another, each claim at one instant under the claim
lock. A runner hands its claim back after a stop, or records an outcome, or is gone. It may take any
time between its claim and its outcome, and locks on tables come and go.

Kept beside the table: whose claim each row carries, and for every outcome whose claim it was written
on. A release puts back the carrier that its claim replaced.
-/

namespace PgBoss

/-- A runner under way: the row as its claim found it, the stamp that the claim wrote, and whose claim the row had
carried. -/
structure BamRunner (ι : Type*) where
  found : BamRow
  stamp : ℤ
  priorCarrier : Option ι

/-- The claim that the runner holds. -/
def BamRunner.claim {ι : Type*} (r : BamRunner ι) : BamClaim := bamClaimOf r.stamp r.found

/-- An outcome written: by which runner, on which row, and whose claim that carried. -/
structure BamOutcome (ι : Type*) where
  runner : ι
  id : Uuid
  carrier : Option ι

/-- The `bam` table, the clock, the tables locked for a build, and the runners. -/
structure BamWorld (ι : Type*) where
  rows : List BamRow
  clock : ℤ
  live : String → Bool
  runners : ι → Option (BamRunner ι)
  carrier : Uuid → Option ι := fun _ => none
  outcomes : List (BamOutcome ι) := []
  claimed : List Uuid := []

namespace BamWorld

variable {ι : Type*} [DecidableEq ι]

/-- `claimBamCommand`, which chose the row `c`. -/
def claim (w : BamWorld ι) (i : ι) (c : BamRow) : BamWorld ι :=
  { w with
    rows := updateBam c.id (claimBamRow w.clock) w.rows
    runners := Function.update w.runners i (some ⟨c, w.clock, w.carrier c.id⟩)
    carrier := Function.update w.carrier c.id (some i)
    claimed := c.id :: w.claimed }

/-- Some row is that of the claim, and carries it. -/
def Carries (w : BamWorld ι) (c : BamClaim) : Prop := ∃ x ∈ w.rows, x.id = c.id ∧ c.carriedBy x = true

instance (w : BamWorld ι) (c : BamClaim) : Decidable (w.Carries c) :=
  inferInstanceAs (Decidable (∃ x ∈ w.rows, _))

/-- `releaseBamCommand`, for a command that has not run. -/
def release (w : BamWorld ι) (i : ι) (r : BamRunner ι) : BamWorld ι :=
  { w with
    rows := releaseBamCommand r.claim w.rows
    runners := Function.update w.runners i none
    carrier := if w.Carries r.claim then Function.update w.carrier r.found.id r.priorCarrier else w.carrier }

/-- An outcome, which `set` writes on the row. A runner that did not learn that it committed goes on. -/
def record (w : BamWorld ι) (i : ι) (r : BamRunner ι) (goesOn : Bool) (set : List BamRow → List BamRow) : BamWorld ι :=
  { w with
    rows := set w.rows
    runners := if goesOn then w.runners else Function.update w.runners i none
    carrier := Function.update w.carrier r.found.id none
    outcomes := ⟨i, r.found.id, w.carrier r.found.id⟩ :: w.outcomes }

/-- One step of a runner, or of what goes on around it. `mayRecord` says when an outcome may be written. A claim skips
rows that a release or an outcome holds, and no pending one is held so. -/
inductive Step (useLiveness : Bool) (mayRecord : BamWorld ι → BamClaim → Prop) (w : BamWorld ι) : BamWorld ι → Prop
  | tick (now : ℤ) (hnow : w.clock ≤ now) : Step useLiveness mayRecord w { w with clock := now }
  | locks (live : String → Bool) : Step useLiveness mayRecord w { w with live := live }
  | claim (i : ι) (pendingOnly : Bool) (rank : BamRow → ℕ) (skipped : List Uuid) (c : BamRow)
      (hidle : w.runners i = none) (hskipped : ∀ x ∈ w.rows, x.id ∈ skipped → x.status ≠ .pending)
      (hfound : bamCandidate useLiveness pendingOnly w.clock w.live rank skipped w.rows = some c) :
      Step useLiveness mayRecord w (w.claim i c)
  | release (i : ι) (r : BamRunner ι) (hr : w.runners i = some r) : Step useLiveness mayRecord w (w.release i r)
  | complete (i : ι) (r : BamRunner ι) (goesOn : Bool) (hr : w.runners i = some r) (hmay : mayRecord w r.claim) :
      Step useLiveness mayRecord w (w.record i r goesOn (setBamCompleted w.clock r.found.id))
  | fail (i : ι) (r : BamRunner ι) (error : String) (hr : w.runners i = some r) (hmay : mayRecord w r.claim) :
      Step useLiveness mayRecord w (w.record i r false (setBamFailed w.clock r.found.id error))
  | crash (i : ι) : Step useLiveness mayRecord w { w with runners := Function.update w.runners i none }

/-- Any number of steps. -/
abbrev Run (useLiveness : Bool) (mayRecord : BamWorld ι → BamClaim → Prop) : BamWorld ι → BamWorld ι → Prop :=
  Relation.ReflTransGen (Step useLiveness mayRecord)

/-- No row is in progress, and no runner under way. -/
structure Start (w : BamWorld ι) : Prop where
  ids : (w.rows.map BamRow.id).Nodup
  idle : ∀ r ∈ w.rows, r.status ≠ .inProgress
  runners : ∀ i, w.runners i = none
  carrier : ∀ id, w.carrier id = none
  outcomes : w.outcomes = []
  claimed : w.claimed = []

/-- A runner under way is the one that took a step, or was under way before. -/
theorem of_runners_update {runners : ι → Option (BamRunner ι)} {i k : ι} {r : Option (BamRunner ι)} {q : BamRunner ι}
    (h : Function.update runners i r k = some q) : (k = i ∧ r = some q) ∨ (k ≠ i ∧ runners k = some q) := by
  by_cases hk : k = i
  · subst hk
    rw [Function.update_self] at h
    exact .inl ⟨rfl, h⟩
  · rw [Function.update_of_ne hk] at h
    exact .inr ⟨hk, h⟩

end BamWorld

end PgBoss
