import PgBoss.Plans.Settle

/-!
# The claiming statement

`fetchNextJob`: the candidate CTEs, the rankings, and the UPDATE that claims. What SQL leaves
open is an argument: rows of equal rank keep the heap order of the table, which is arbitrary;
`rank` orders the rows of one singleton key, whose `row_number()` has no ORDER BY; and
`locked` are the rows other transactions hold, which SKIP LOCKED passes over.
-/

namespace PgBoss

open Relational

/-- `GroupConcurrencyConfig`. A number passed as `groupConcurrency` is a default with no tiers. -/
structure GroupConcurrency where
  default : Int
  tiers : Option (List (String × Int)) := none
  deriving DecidableEq, Repr

/-- The options of `fetchNextJob` that decide which rows it claims. -/
structure FetchOptions where
  name : String
  policy : QueuePolicy
  limit : ℕ := 1
  ignoreStartAfter : Bool := false
  groupConcurrency : Option GroupConcurrency := none
  ignoreGroups : List String := []
  minPriority : Option Int := none
  maxPriority : Option Int := none
  noSkipLocked : Bool := false
  deriving DecidableEq, Repr

/-- `singletonPolicy`. -/
def FetchOptions.singletonPolicy (o : FetchOptions) : Bool :=
  decide (o.policy = .singleton) || decide (o.policy = .stately)

/-- `singletonFetch`: a batch on a queue with one active job per key ranks its candidates. -/
def FetchOptions.singletonFetch (o : FetchOptions) : Bool := decide (1 < o.limit) && o.singletonPolicy

/-- `groupLimit`: the tier's limit, else the default. -/
def GroupConcurrency.limitFor (g : GroupConcurrency) (tier : Option String) : Int :=
  (tier.bind fun t => ((g.tiers.getD []).find? fun entry => entry.1 = t).map Prod.snd).getD g.default

/-- `hasSingleGroupConcurrency`. -/
def GroupConcurrency.isSingle (g : GroupConcurrency) : Bool :=
  (g.tiers.getD []).isEmpty && decide (g.default = 1)

/-- The active jobs of a group of the queue. -/
def activeInGroup (name : String) (group : String) (db : Database) : ℕ :=
  db.jobs.countP fun j => decide (j.name = name ∧ j.state = .active ∧ j.groupId = some group)

/-- `active_cnt`, which the single-slot form does not count. -/
def activeCount (o : FetchOptions) (g : GroupConcurrency) (group : String) (db : Database) : ℕ :=
  if g.isSingle then 0 else activeInGroup o.name group db

/-- `groupConcurrencyFilter`. -/
def groupConcurrencyFilter (o : FetchOptions) (db : Database) (j : Job) : Bool :=
  match o.groupConcurrency, j.groupId with
  | some g, some group =>
    if g.isSingle then !db.jobs.any fun k => decide (k.name = o.name ∧ k.state = .active ∧ k.groupId = some group)
    else decide ((activeCount o g group db : Int) < g.limitFor j.groupTier)
  | _, _ => true

/-- The start test, absent under `ignoreStartAfter`. -/
def startable (now : Timestamp) (o : FetchOptions) (j : Job) : Bool :=
  o.ignoreStartAfter || decide (j.startAfter ≤ now)

/-- The rows `strict_fifo_heads` ranks. -/
def headCandidate (now : Timestamp) (o : FetchOptions) (j : Job) : Bool :=
  decide (j.name = o.name) && decide (j.state < .active) && !j.blocked &&
    decide (j.policy = some .keyStrictFifo) && startable now o j

/-- `ORDER BY state DESC, created_on, id` within a key. -/
def headBefore (a b : Job) : Prop :=
  b.state.rank < a.state.rank ∨ a.state.rank = b.state.rank ∧
    (a.createdOn < b.createdOn ∨ a.createdOn = b.createdOn ∧ a.id ≤ b.id)

instance (a b : Job) : Decidable (headBefore a b) := by unfold headBefore; infer_instance

/-- `strict_fifo_heads`: the first row of each key. -/
def strictFifoHeads (now : Timestamp) (o : FetchOptions) (db : Database) : List Job :=
  (db.jobs.filter (headCandidate now o)).filter fun j =>
    (db.jobs.filter (headCandidate now o)).all fun h =>
      !decide (h.singletonKey = j.singletonKey) || decide (headBefore j h)

/-- The strict FIFO blocker: another active, retrying or failed row of the key. -/
def strictFifoBlocked (db : Database) (j : Job) : Bool :=
  db.jobs.any fun b => decide (b.name = j.name ∧ b.singletonKey.isSome ∧ b.singletonKey = j.singletonKey ∧
    (b.state = .active ∨ b.state = .retry ∨ b.state = .failed) ∧ b.policy = some .keyStrictFifo ∧ b.id ≠ j.id)

/-- The singleton probe: an active row of the key under the queue's policy. -/
def singletonProbe (o : FetchOptions) (db : Database) (j : Job) : Bool :=
  db.jobs.any fun p => decide (p.name = j.name ∧ p.state = .active ∧ p.policy = some o.policy ∧
    p.slotKey = j.slotKey)

/-- The filters a caller may add: groups to pass over and priority bounds. -/
def fetchFilters (o : FetchOptions) (j : Job) : Bool :=
  (match j.groupId with
    | none => true
    | some group => decide (group ∉ o.ignoreGroups)) &&
  (o.minPriority.all fun p => decide (p ≤ j.priority)) &&
  (o.maxPriority.all fun p => decide (j.priority ≤ p))

/-- `whereConditions`: the rows the `next` CTE takes candidates from. -/
def fetchEligible (now : Timestamp) (o : FetchOptions) (db : Database) (j : Job) : Bool :=
  decide (j.name = o.name) && decide (j.state < .active) && !j.blocked && startable now o j &&
    (if o.policy = .keyStrictFifo then
      decide (j.id ∈ (strictFifoHeads now o db).map Job.id) && !strictFifoBlocked db j else true) &&
    (if o.singletonPolicy then !singletonProbe o db j else true) &&
    fetchFilters o j && groupConcurrencyFilter o db j

/-- `ORDER BY priority DESC, created_on`. -/
def fetchBefore (a b : Job) : Prop :=
  b.priority < a.priority ∨ a.priority = b.priority ∧ a.createdOn ≤ b.createdOn

instance : DecidableRel fetchBefore := fun a b => by unfold fetchBefore; infer_instance

/-- The `next` CTE. -/
def fetchNext (now : Timestamp) (locked : List JobKey) (o : FetchOptions) (db : Database) : List Job :=
  (((db.jobs.filter (fetchEligible now o db)).insertionSort fetchBefore).filter fun j =>
    decide (j.jobKey ∉ locked)).take o.limit

/-- `singleton_rn = 1`: the row ranked first among the candidates with its `singleton_key`. -/
def singletonFirst (rank : Job → ℕ) (candidates : List Job) : List Job :=
  candidates.filter fun j => decide (firstBy (fun a b => decide (rank a < rank b))
    (candidates.filter fun k => decide (k.singletonKey = j.singletonKey)) = some j)

/-- `group_rn`: the position by id among the candidates of the group. -/
def groupRank (candidates : List Job) (j : Job) : ℕ :=
  candidates.countP fun k => decide (k.groupId = j.groupId ∧ k.id ≤ j.id)

/-- `group_filtered`. -/
def groupFiltered (o : FetchOptions) (g : GroupConcurrency) (db : Database) (candidates : List Job) : List Job :=
  candidates.filter fun j =>
    match j.groupId with
    | none => true
    | some group =>
      decide ((activeCount o g group db : Int) + groupRank candidates j ≤ g.limitFor j.groupTier)

/-- The rows the UPDATE names: the candidates after the rankings the options ask for. -/
def fetchChosen (now : Timestamp) (rank : Job → ℕ) (locked : List JobKey) (o : FetchOptions)
    (db : Database) : List Job :=
  let next := fetchNext now locked o db
  let ranked := if o.singletonFetch then singletonFirst rank next else next
  match o.groupConcurrency with
  | some g => groupFiltered o g db ranked
  | none => ranked

/-- The columns a claim sets. -/
def claimSet (now : Timestamp) (j : Job) : Job :=
  { j with
    state := .active
    startedOn := some now
    heartbeatOn := some now
    retryCount := if j.startedOn.isSome then j.retryCount + 1 else j.retryCount }

/-- The rows the claiming UPDATE selects. -/
def fetchSelects (now : Timestamp) (rank : Job → ℕ) (locked : List JobKey) (o : FetchOptions)
    (db : Database) (j : Job) : Bool :=
  decide (j.name = o.name) && decide (j.id ∈ (fetchChosen now rank locked o db).map Job.id) &&
    (!o.noSkipLocked || decide (j.state < .active))

/-- `fetchNextJob`: the claimed rows as they are returned. -/
def fetchNextJob (now : Timestamp) (rank : Job → ℕ) (locked : List JobKey) (o : FetchOptions)
    (db : Database) : Reply (List Job) :=
  match db.updateWhere (fetchSelects now rank locked o db) (claimSet now) with
  | .error e => .error e
  | .ok (db', _) => .ok (db', (db.jobs.filter (fetchSelects now rank locked o db)).map (claimSet now))

/-- `fetchNextJob` where other statements have committed since its snapshot: of the rows chosen
there it claims those that still wait. -/
def fetchNextJobSince (now : Timestamp) (rank : Job → ℕ) (locked : List JobKey) (o : FetchOptions)
    (snapshot db : Database) : Reply (List Job) :=
  let selects := fun j => fetchSelects now rank locked o snapshot j && decide (j.state < .active)
  match db.updateWhere selects (claimSet now) with
  | .error e => .error e
  | .ok (db', _) => .ok (db', (db.jobs.filter selects).map (claimSet now))

end PgBoss
