import PgBoss.Lifecycle.Queues
import PgBoss.Manager.Flow

/-!
# Resolver passes among other statements

A pass of the resolver locks completed parents, and its statements take them from their
children's counters. Such a statement reads a snapshot and locks the children it found in it;
a child that a failure deletes and inserts anew in between is not in the snapshot, and the
statement misses it. So a pass in flight is part of the state. In `resolveFlowJobs` one
statement takes its snapshot, locks the parents and resolves them all; in
`resolveFlowJobsDistributed` the parents are locked first, and each queue's statement has a
snapshot of its own. Rows a pass has written stay locked until it commits: one that commits is
taken to write as it goes, and one that rolls back not to have run.

`resolveFlowJobsDistributed` has a transaction on pg-boss's own pool alone. On a database that
the application hands over its statements commit one by one: the parents it selects are not
locked when it goes on, `decrementDependents` and `clearBlocking` take effect apart, and it may
stop between them.
-/

namespace PgBoss

open Relational Relation

/-- A pass in flight: the parents it has locked and not yet resolved, those its statement is to
resolve, and the jobs deleted and inserted anew since that statement's snapshot. -/
structure Pass where
  parents : List JobKey := []
  group : List JobKey := []
  missed : List JobKey := []
  deriving DecidableEq, Repr

/-- A pass in flight whose statements commit one by one: the parents it has selected and not yet
resolved, those of the queue it is at, the jobs deleted and inserted anew since its statement's
snapshot, and whether `decrementDependents` has run for that queue. -/
structure ApartPass where
  parents : List JobKey
  group : List JobKey := []
  missed : List JobKey := []
  decremented : Bool := false
  deriving DecidableEq, Repr

/-- The tables, and the resolver passes in flight. -/
structure FlowWorld where
  db : Database
  passes : List Pass := []
  apart : List ApartPass := []

/-- What can happen to the jobs of flows. -/
inductive FlowAction
  | exec (s : Statement)
  | flow (now : Timestamp) (drawn : String → Uuid) (jobs : List FlowJob)
  | start
  | snapshot (p : Pass)
  | lock (p : Pass) (names : List String) (locked : List JobKey)
  | take (p : Pass) (group : List JobKey)
  | resolve (now : Timestamp) (p : Pass)
  | release (p : Pass)
  | select (names : List String) (locked : List JobKey)
  | begin (p : ApartPass) (group : List JobKey)
  | decrement (now : Timestamp) (p : ApartPass)
  | clear (p : ApartPass)
  | leave (p : ApartPass)

/-- The rows a failure statement deletes and inserts anew. -/
def Statement.reinserts (db : Database) : Statement → List JobKey
  | .failJobs i call => (db.jobs.filter (call.selects i.now db)).map Job.jobKey
  | .failDistributed i call => (call.selected i.now db).map Job.jobKey
  | _ => []

/-- The parents that passes in flight hold locks on. -/
def FlowWorld.held (w : FlowWorld) : List JobKey := w.passes.flatMap Pass.parents

/-- A pass after jobs were deleted and inserted anew. -/
def Pass.miss (p : Pass) (keys : List JobKey) : Pass := { p with missed := keys ++ p.missed }

@[inherit_doc Pass.miss]
def ApartPass.miss (p : ApartPass) (keys : List JobKey) : ApartPass := { p with missed := keys ++ p.missed }

/-- A pass goes on. -/
def FlowWorld.put (w : FlowWorld) (p p' : Pass) : FlowWorld := { w with passes := p' :: w.passes.erase p }

@[inherit_doc FlowWorld.put]
def FlowWorld.putApart (w : FlowWorld) (p p' : ApartPass) : FlowWorld := { w with apart := p' :: w.apart.erase p }

/-- The world after an action, if it can happen. -/
def FlowWorld.next (w : FlowWorld) : FlowAction → Option FlowWorld
  | .exec s =>
    match s.exec w.db with
    | .error _ => none
    | .ok db =>
      some
        { db
          passes := w.passes.map fun p => p.miss (s.reinserts w.db)
          apart := w.apart.map fun p => p.miss (s.reinserts w.db) }
  | .flow now drawn jobs =>
    match PgBoss.flow now drawn jobs w.db with
    | .error _ => none
    | .ok db => some { w with db }
  | .start => some { w with passes := {} :: w.passes }
  | .snapshot p => if p ∈ w.passes ∧ p.group = [] then some (w.put p { p with missed := [] }) else none
  | .lock p names locked =>
    if p ∈ w.passes ∧ p.parents = [] then
      some (w.put p { p with parents := selectBlockingParents names (w.held ++ locked) w.db })
    else none
  | .take p group =>
    if p ∈ w.passes ∧ p.group = [] ∧ group.Sublist p.parents then some (w.put p { p with group }) else none
  | .resolve now p =>
    if p ∈ w.passes then
      match resolveParents now p.group p.missed w.db with
      | .error _ => none
      | .ok (db, _) => some (FlowWorld.put { w with db } p { parents := p.parents.filter fun k => decide (k ∉ p.group) })
    else none
  | .release p => if p ∈ w.passes then some { w with passes := w.passes.erase p } else none
  -- `FOR UPDATE` outside a transaction: the locks are gone with the statement
  | .select names locked =>
    some { w with apart := { parents := selectBlockingParents names (w.held ++ locked) w.db } :: w.apart }
  | .begin p group =>
    if p ∈ w.apart ∧ p.decremented = false ∧ group.Sublist p.parents then
      some (w.putApart p { p with group, missed := [] })
    else none
  | .decrement now p =>
    if p ∈ w.apart ∧ p.decremented = false then
      match decrementDependents now p.group p.missed w.db with
      | .error _ => none
      | .ok (db, _) => some (FlowWorld.putApart { w with db } p { p with decremented := true })
    else none
  -- it waits for a pass that holds its parents
  | .clear p =>
    if p ∈ w.apart ∧ p.decremented = true ∧ ∀ k ∈ p.group, k ∉ w.held then
      match clearBlocking p.group w.db with
      | .error _ => none
      | .ok (db, _) =>
        some (FlowWorld.putApart { w with db } p { parents := p.parents.filter fun k => decide (k ∉ p.group) })
    else none
  | .leave p => if p ∈ w.apart then some { w with apart := w.apart.erase p } else none

/-- One action the run may take. -/
inductive FlowWorld.Step (may : FlowWorld → FlowAction → Prop) (w w' : FlowWorld) : Prop
  | act (a : FlowAction) (hmay : may w a) (hnext : w.next a = some w')

/-- Any number of actions. -/
abbrev FlowWorld.Run (may : FlowWorld → FlowAction → Prop) : FlowWorld → FlowWorld → Prop :=
  ReflTransGen (FlowWorld.Step may)

/-- The jobs dependencies speak of. -/
def Database.flowKeys (db : Database) : List JobKey := db.dependencies.flatMap fun d => [d.child, d.parent]

/-- A payload of `send()` or `insert()`, which cannot set the flow columns. -/
def JobInsert.plain (x : JobInsert) : Bool := x.blocked.isNone && x.blocking.isNone && x.pendingDependencies.isNone

/-- The statements users and workers reach: flow columns are written by flows and passes alone, and no
job is restored. -/
def Statement.ordinary : Statement → Bool
  | .insertJobs _ _ _ payload => payload.all fun x => x.1.plain
  | .insertFlowJobs _ _ _ => false
  | .insertDependencies _ => false
  | .restoreJobs _ _ => false
  | s => !s.writesFlow

/-- No statement takes a job of a flow out of the tables, and none adds a job under the key of one. -/
def KeepsFlows (db : Database) (s : Statement) : Prop :=
  (∀ r ∈ s.adds db, r.jobKey ∉ db.flowKeys) ∧
    match s.exec db with
    | .ok db' => ∀ j ∈ db.jobs, j.jobKey ∈ db.flowKeys → j.jobKey ∈ db'.jobs.map Job.jobKey
    | .error _ => True

instance (db : Database) (s : Statement) : Decidable (KeepsFlows db s) := by
  unfold KeepsFlows; split <;> infer_instance

/-- The runs the law speaks of: flows of valid jobs, resolver passes, and ordinary statements that
keep the jobs of flows. -/
def FlowAction.Lawful (w : FlowWorld) : FlowAction → Prop
  | .exec s => s.ordinary = true ∧ KeepsFlows w.db s
  | .flow _ _ jobs => FlowJobs jobs
  | _ => True

instance (w : FlowWorld) (a : FlowAction) : Decidable (a.Lawful w) := by
  cases a <;> simp only [FlowAction.Lawful] <;> infer_instance

/-- A resolver statement comes to lock its children while none has been deleted and inserted anew since
its snapshot. One that commits before the flags of its parents are cleared finds no child that is
still blocked. -/
def FlowAction.Undisturbed (w : FlowWorld) : FlowAction → Prop
  | .resolve _ p => ∀ k ∈ p.missed, parentsAmong p.group w.db k = 0
  | .decrement _ p => ∀ j ∈ w.db.jobs, lockedChild p.group [] w.db j = false
  | _ => True

instance (w : FlowWorld) (a : FlowAction) : Decidable (a.Undisturbed w) := by
  cases a <;> simp only [FlowAction.Undisturbed] <;> infer_instance

section Played

variable {may : FlowWorld → FlowAction → Prop} [∀ w a, Decidable (may w a)]

/-- The world after the actions in turn, if each can happen and the run may take it. -/
def FlowWorld.play (may : FlowWorld → FlowAction → Prop) [∀ w a, Decidable (may w a)] (w : FlowWorld) :
    List FlowAction → Option FlowWorld
  | [] => some w
  | a :: rest => if may w a then (w.next a).bind fun w' => w'.play may rest else none

/-- Playing actions a run may take is a run. -/
theorem FlowWorld.play_run {actions : List FlowAction} {w w' : FlowWorld} (h : w.play may actions = some w') :
    FlowWorld.Run may w w' := by
  induction actions generalizing w with
  | nil => exact Option.some.inj h ▸ .refl
  | cons a rest ih =>
    obtain ⟨hmay, h⟩ := Option.ite_none_right_eq_some.mp h
    obtain ⟨next, hnext, hrest⟩ := Option.bind_eq_some_iff.mp h
    exact .head (.act a hmay hnext) (ih hrest)

end Played

end PgBoss
