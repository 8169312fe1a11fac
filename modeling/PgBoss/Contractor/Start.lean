import PgBoss.Contractor.MigrationStore

/-!
# Starting instances

Any number of instances of any releases run `Contractor.start` at once. Each asks whether anything is
installed and which version, and then runs one transaction under the advisory lock. The transaction
is one step, since the lock admits one at a time and what fails in it is rolled back. A step of a
migration run on a schema that it was not written for may succeed or fail.
-/

namespace PgBoss

/-- An installed schema: the version it is stamped with, and the commands that made it. -/
structure Installed (σ : Type*) where
  version : ℕ
  commands : List σ

/-- What an instance that starts waits for. -/
inductive StartWait (σ : Type*)
  | isInstalled | schemaVersion | create
  | migrate (version : ℕ) (plan : List σ × ℕ)
  | resolved | failed

/-- A migration that committed: the version its plan was computed from, and the one stored when it held the lock. -/
structure MigrationCommit where
  planned : ℕ
  found : ℕ
  deriving DecidableEq, Repr

/-- The database and the instances. -/
structure Deploy (ι σ : Type*) where
  stored : Option (Installed σ) := none
  instances : ι → StartWait σ
  commits : List MigrationCommit := []

namespace Deploy

variable {ι σ : Type*} [DecidableEq ι] {chain : MigrationChain σ} (release : ι → Release chain)

/-- An instance goes on. -/
def goOn (w : Deploy ι σ) (i : ι) (wait : StartWait σ) : Deploy ι σ :=
  { w with instances := Function.update w.instances i wait }

/-- `start`, when the installed version is known. -/
def planned (version : ℕ) (r : Release chain) : StartWait σ :=
  if r.schemaVersion > version then
    match migrateCommands r.migrations version with
    | some plan => .migrate version plan
    | none => .failed
  else .resolved

/-- `create`. What is there already raises `CREATE_RACE_MESSAGE`, which is swallowed. -/
def create (w : Deploy ι σ) (i : ι) : Deploy ι σ :=
  match w.stored with
  | some _ => w.goOn i .resolved
  | none =>
    { w.goOn i .resolved with
      stored := some ⟨(release i).schemaVersion, (release i).migrations.flatMap Migration.install⟩ }

/-- `migrate`. `assertMigration` divides by zero on the plan's own version, which is swallowed as
`MIGRATE_RACE_MESSAGE`; otherwise the commands run, and the transaction commits if they all succeed. -/
def migrate (w : Deploy ι σ) (i : ι) (version : ℕ) (plan : List σ × ℕ) (s : Installed σ) (succeeds : Bool) : Deploy ι σ :=
  if s.version = plan.2 then w.goOn i .resolved
  else if succeeds then
    { w.goOn i .resolved with
      stored := some ⟨plan.2, s.commands ++ plan.1⟩
      commits := ⟨version, s.version⟩ :: w.commits }
  else w.goOn i .failed

/-- One step of an instance. `may` says when one may create, or run its commands to the end. -/
inductive Step (may : Deploy ι σ → ι → Prop) (w : Deploy ι σ) : Deploy ι σ → Prop
  | isInstalled (i : ι) (hi : w.instances i = .isInstalled) :
      Step may w (w.goOn i (if w.stored.isSome then .schemaVersion else .create))
  | schemaVersion (i : ι) (hi : w.instances i = .schemaVersion) (s : Installed σ) (hs : w.stored = some s) :
      Step may w (w.goOn i (planned s.version (release i)))
  | create (i : ι) (hi : w.instances i = .create) (hmay : may w i) : Step may w (w.create release i)
  | migrate (i : ι) (version : ℕ) (plan : List σ × ℕ) (hi : w.instances i = .migrate version plan) (s : Installed σ)
      (hs : w.stored = some s) (succeeds : Bool) (hmay : succeeds = true → may w i) :
      Step may w (w.migrate i version plan s succeeds)
  | fail (i : ι) (hi : w.instances i ≠ .resolved) : Step may w (w.goOn i .failed)

/-- Any number of steps. -/
abbrev Run (may : Deploy ι σ → ι → Prop) : Deploy ι σ → Deploy ι σ → Prop := Relation.ReflTransGen (Step release may)

/-- Nothing is installed, or a schema that is what its version says. -/
structure Start (chain : MigrationChain σ) (w : Deploy ι σ) : Prop where
  built : ∀ s, w.stored = some s → s.commands = chain.upTo s.version
  starting : ∀ i, w.instances i = .isInstalled
  commits : w.commits = []

end Deploy

end PgBoss
