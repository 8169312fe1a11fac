import Mathlib

/-!
# The interval claim

The conditional update that decides which instance runs an interval pass: whoever moves the stamp
owns the interval. `trySetCronTime` answers on both outcomes, with the stamp it read and how old
that was. Instants are milliseconds with their fractions; statements are instantaneous here, so the
snapshot read and the update see the same row.
-/

namespace PgBoss

/-- `interval '1 week'`, in milliseconds. -/
def oneWeek : ℚ := 604800000

/-- `trySetTimestamp`: the stamp afterwards, and whether the update went through. -/
def trySetTimestamp (seconds now : ℚ) (stamp : Option ℚ) : Option ℚ × Bool :=
  if seconds ≤ (now - stamp.getD (now - oneWeek)) / 1000 then (some now, true) else (stamp, false)

/-- The row `trySetCronTime` answers with; `elapsed` is in seconds. -/
structure CronClaim where
  priorCronOn : Option ℚ
  elapsed : Option ℚ
  claimed : Bool
  deriving DecidableEq

/-- `trySetCronTime`: `cron_on` afterwards, and the answer. -/
def trySetCronTime (seconds now : ℚ) (cronOn : Option ℚ) : Option ℚ × CronClaim :=
  let claim := trySetTimestamp seconds now cronOn
  (claim.1, ⟨cronOn, cronOn.map fun t => (now - t) / 1000, claim.2⟩)

end PgBoss
