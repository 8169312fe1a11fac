import PgBoss.Plans.Fetch

/-!
# The statements of `#fetch`

A fetch claims in one statement. With a group limit it then counts the active jobs of the
groups it claimed from, and gives back what exceeds the limit with `restore`. A fetch that gave
everything back starts over, which is another fetch.
-/

namespace PgBoss

open Relational

/-- The claim of `#fetch`: a unique violation is an empty fetch. -/
def fetchClaim (now : Timestamp) (rank : Job → ℕ) (locked : List JobKey) (o : FetchOptions)
    (db : Database) : Reply (List Job) :=
  match fetchNextJob now rank locked o db with
  | .error .uniqueViolation => .ok (db, [])
  | reply => reply

/-- `getActiveGroupCounts`. -/
def getActiveGroupCounts (name : String) (groups : List String) (db : Database) : List (String × ℕ) :=
  groups.dedup.filterMap fun group =>
    if activeInGroup name group db = 0 then none else some (group, activeInGroup name group db)

/-- `active.get(group) ?? 0`. -/
def countOf (active : List (String × ℕ)) (group : Option String) : ℕ :=
  (group.bind fun group => (active.find? fun entry => entry.1 = group).map Prod.snd).getD 0

/-- The names an object answers to without their being set on it. -/
def objectPrototype : List String :=
  ["constructor", "hasOwnProperty", "isPrototypeOf", "propertyIsEnumerable", "toLocaleString", "toString",
    "valueOf", "__defineGetter__", "__defineSetter__", "__lookupGetter__", "__lookupSetter__", "__proto__"]

/-- `config.tiers?.[row.groupTier] ?? config.default`. A missing tier reads as `"null"`, and a name
of `objectPrototype` as something that compares with no number, here `none`. -/
def tierLimit (g : GroupConcurrency) (tier : Option String) : Option Int :=
  match g.tiers with
  | none => some g.default
  | some tiers =>
    match tiers.find? fun entry => entry.1 = tier.getD "null" with
    | some entry => some entry.2
    | none => if tier.getD "null" ∈ objectPrototype then none else some g.default

/-- `count > limit`. -/
def exceeds (g : GroupConcurrency) (tier : Option String) (count : Int) : Bool :=
  (tierLimit g tier).any fun limit => decide (limit < count)

/-- The loop over the batch from its end: a job is excess while its group counts over its limit. -/
def excessIds (g : GroupConcurrency) : (Option String → Int) → List Job → List Uuid
  | _, [] => []
  | active, row :: rest =>
    if exceeds g row.groupTier (active row.groupId) then
      row.id :: excessIds g (Function.update active row.groupId (active row.groupId - 1)) rest
    else excessIds g active rest

/-- `rows.map(row => row.groupId).filter(Boolean)`. -/
def batchGroups (rows : List Job) : List String :=
  (rows.filterMap Job.groupId).filter fun group => decide (group ≠ "")

/-- The ids `#fetch` decides to give back from the counts it reads, if a row has a group. -/
def recount (o : FetchOptions) (rows : List Job) (db : Database) : List Uuid :=
  match o.groupConcurrency with
  | none => []
  | some g =>
    if (batchGroups rows).isEmpty then []
    else excessIds g (fun group => countOf (getActiveGroupCounts o.name (batchGroups rows) db) group) rows.reverse

/-- The per-id tries of `#giveBack`: a refused job stays as it is. -/
def giveBackEach (name : String) : List Uuid → Database → Database × List Uuid
  | [], db => (db, [])
  | id :: rest, db =>
    match restoreJobs name [id] db with
    | .error _ => giveBackEach name rest db
    | .ok (db', _) => ((giveBackEach name rest db').1, id :: (giveBackEach name rest db').2)

/-- `#giveBack` outside a caller's transaction: the table, and the ids that went back to created. -/
def giveBack (name : String) (ids : List Uuid) (db : Database) : Database × List Uuid :=
  match restoreJobs name ids db with
  | .ok (db', _) => (db', ids)
  | .error _ => if ids.length = 1 then (db, []) else giveBackEach name ids db

/-- What `#fetch` does with the ids it decided on: the table, and the rows it returns. -/
def fetchReturn (name : String) (rows : List Job) (excess : List Uuid) (db : Database) : Database × List Job :=
  if excess.isEmpty then (db, rows)
  else ((giveBack name excess db).1, rows.filter fun row => decide (row.id ∉ (giveBack name excess db).2))

end PgBoss
