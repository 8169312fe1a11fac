import PgBoss.Plans.Redrive
import PgBoss.Manager.FailDistributed

/-!
# Redriving

`redrive()` on a backend without multi-mutation statements, and what `previewRedrive()` reports
from the destinations it reads.
-/

namespace PgBoss

/-- `redrive()` under `noMultiMutationCte`, the body of its transaction. -/
def redriveDistributed (o : RedriveOptions) (db : Database) : Reply ℕ :=
  match selectRedriveCandidates o db with
  | [] => .ok (db, 0)
  | row :: rest =>
    match insertRedrivenJobs o ((row :: rest).map Prod.fst) ((row :: rest).map Prod.snd) db with
    | .error e => .error e
    | .ok (inserted, created) =>
      let moved := ((row :: rest).filter fun r => decide (r.2 ∈ created)).map Prod.fst
      let conflicted := ((row :: rest).filter fun r => decide (r.2 ∉ created)).map Prod.fst
      let deleted := if moved.isEmpty then inserted
        else deleteJobsByIds (moved.map fun id => (o.deadLetter, id)) inserted
      if conflicted.isEmpty then .ok (deleted, moved.length)
      else (failRedriveConflicts o conflicted deleted).map fun out => (out.1, moved.length)

/-- `RedrivePreview`, the destinations in the order they were first read. -/
structure RedrivePreview where
  total : ℕ
  destinations : List (String × ℕ)
  unroutable : ℕ
  deriving DecidableEq, Repr

/-- `previewRedrive()`, from the destinations read. -/
def RedrivePreview.ofRows (rows : List (Option String)) : RedrivePreview where
  total := rows.length
  destinations := (rows.reduceOption.reverse.dedup.reverse).map fun name => (name, rows.count (some name))
  unroutable := rows.count none

end PgBoss
