import PgBoss.Manager.HandlerSettles
import PgBoss.Lifecycle.Evolution

/-!
# Per-job settlement

A `perJobResults` handler resolves with an array that says of each job how it ended.
`#settlePerJob` reduces whatever came to three sets, and settles each with one statement of its
own, fenced to the attempts the batch was fetched at. When any of this throws, `#processJobs`
fails the whole batch, fenced the same way.

Each statement commits by itself. It may also throw without a trace, or commit and lose its
answer, and between any two of them other sessions do as they please. On a backend without
multi-mutation CTEs a failing call is several statements; they share a transaction on pg-boss's own
pool, and on a database that the application supplied the call can be cut short between them.
-/

namespace PgBoss

/-- An entry of the array a handler resolves with. `id` and `status` are none where the value is
no string, and `output` is what `mapCompletionDataArg` makes of the entry's output. -/
structure JobResult where
  id : Option String
  status : Option String
  output : Option Json
  deriving DecidableEq, Repr

/-- What a handler resolves with. A falsy entry is none. -/
inductive HandlerResult
  | notArray
  | array (items : List (Option JobResult))
  deriving DecidableEq, Repr

/-- How a job of the batch is settled: as its entry says, or with the whole batch. -/
inductive Settlement
  | completed
  | failed
  | deadLettered
  | batchFailed
  deriving DecidableEq, Repr

/-- The settlement an entry asks for: none when its status is not one of the three. -/
def JobResult.settlement (item : JobResult) : Option Settlement :=
  if item.status = some "completed" then some .completed
  else if item.status = some "failed" then some .failed
  else if item.status = some "deadletter" then some .deadLettered
  else none

/-- The completed, failed and dead lettered jobs of a batch, each with its output. -/
structure Partition where
  completed : List (JobAttempt × Option Json) := []
  failed : List (JobAttempt × Option Json) := []
  deadLettered : List (JobAttempt × Option Json) := []
  deriving DecidableEq, Repr

namespace Batch

/-- `item && batch.has(item.id) && (item.status === 'completed' || ...)`. -/
def accepts (b : Batch) (item : JobResult) : Bool :=
  item.id.any (fun id => decide (id ∈ b.jobIds)) && item.settlement.isSome

/-- The loop over the handler's entries: `disposition.set(item.id, item)` for each valid one. -/
def disposition (b : Batch) (map : String → Option JobResult) : List (Option JobResult) → String → Option JobResult
  | [] => map
  | none :: rest => b.disposition map rest
  | some item :: rest =>
    if b.accepts item then b.disposition (fun id => if item.id = some id then some item else map id) rest
    else b.disposition map rest

end Batch

/-- One turn of the loop over the batch. `stringify` serializes an error made with the message. -/
def Partition.push (stringify : String → Json) (p : Partition) (job : JobAttempt) (item : Option JobResult) :
    Partition :=
  match item.bind JobResult.settlement, item.bind JobResult.output with
  | some .completed, output => { p with completed := p.completed ++ [(job, output)] }
  | some .failed, output => { p with failed := p.failed ++ [(job, output)] }
  | some .deadLettered, output => { p with deadLettered := p.deadLettered ++ [(job, output)] }
  | _, _ => { p with failed := p.failed ++ [(job, some (stringify "no disposition returned by handler"))] }

/-- The loop over the batch. -/
def Partition.pushAll (stringify : String → Json) (disposition : String → Option JobResult) (p : Partition) :
    List JobAttempt → Partition
  | [] => p
  | job :: rest => (p.push stringify job (disposition (uuidText job.id))).pushAll stringify disposition rest

/-- The sets `#settlePerJob` makes of the batch and the entries. -/
def Batch.partition (b : Batch) (stringify : String → Json) (items : List (Option JobResult)) : Partition :=
  ({} : Partition).pushAll stringify (b.disposition (fun _ => none) items) b.jobs

/-- The calls that settle jobs of the batch, with what they are given. -/
inductive PerJobCall
  | completeWithOutputs (items : List (JobAttempt × Option Json))
  | failWithOutputs (items : List (JobAttempt × Option Json)) (forceTerminal : Bool)
  | fail (jobs : List JobAttempt) (output : Option Json)
  deriving DecidableEq, Repr

namespace PerJobCall

/-- The jobs a call names, each with its output. -/
def items : PerJobCall → List (JobAttempt × Option Json)
  | completeWithOutputs items => items
  | failWithOutputs items _ => items
  | fail jobs output => jobs.map fun job => (job, output)

/-- How the call settles a job. -/
def kind : PerJobCall → Settlement
  | completeWithOutputs _ => .completed
  | failWithOutputs _ false => .failed
  | failWithOutputs _ true => .deadLettered
  | fail _ _ => .batchFailed

/-- The statement of the call, or on a backend without multi-mutation CTEs its transaction. -/
def statement (name : String) (noMultiMutationCte : Bool) (i : ReinsertInput) : PerJobCall → Statement
  | completeWithOutputs items => .completeJobsWithOutputs i.now name items
  | failWithOutputs items forceTerminal =>
    if noMultiMutationCte then .failDistributed i (.failWithOutputs name items forceTerminal)
    else .failJobs i.toFailInput (.failWithOutputs name items forceTerminal)
  | fail jobs output =>
    let i := { i with output := fun _ => output }
    if noMultiMutationCte then .failDistributed i (.fail name (jobs.map JobAttempt.id) (some jobs))
    else .failJobs i.toFailInput (.fail name (jobs.map JobAttempt.id) (some jobs))

/-- The statements of the call on a backend without multi-mutation CTEs, where it takes several. -/
def several (name : String) (i : ReinsertInput) : PerJobCall → Option (ReinsertInput × ReinsertCall)
  | completeWithOutputs _ => none
  | failWithOutputs items forceTerminal => some (i, .failWithOutputs name items forceTerminal)
  | fail jobs output =>
    some ({ i with output := fun _ => output }, .fail name (jobs.map JobAttempt.id) (some jobs))

/-- The rows the call finds: active under one of its attempts. -/
def selects (name : String) (c : PerJobCall) (j : Job) : Bool := failItemSelects name c.items j

end PerJobCall

namespace Batch

/-- The batch-wide `fail(name, jobs, err)`. -/
def failAll (b : Batch) (err : Option Json) : PerJobCall := .fail b.jobs err

/-- The calls `#settlePerJob` makes, in order: none for an empty set, and for a value that is no
array the batch-wide fail. -/
def settlePerJob (b : Batch) (stringify : String → Json) : HandlerResult → List PerJobCall
  | .notArray =>
    [b.failAll (some (stringify "perJobResults handler must resolve with an array of job results"))]
  | .array items =>
    let p := b.partition stringify items
    [.completeWithOutputs p.completed, .failWithOutputs p.failed false,
      .failWithOutputs p.deadLettered true].filter fun c => !c.items.isEmpty

end Batch

/-- Some row is active under the attempt. -/
def Database.holds (db : Database) (name : String) (a : JobAttempt) : Bool :=
  db.jobs.any fun j => decide (j.name = name) && attemptFence [a] j

/-- Where `#processJobs` is in settling the batch: before the calls that are left, before the
batch-wide fail of its catch, past either, or past a fail that threw too. -/
inductive PerJobPhase
  | settling (rest : List PerJobCall)
  | failing
  | returned
  | raised
  deriving DecidableEq, Repr

/-- The tables and the phase, with what happened to the batch's claims so far: those the calls
settled, those other sessions ended, and those other sessions brought back. `cut` says that a call
was cut short once it had deleted its jobs. -/
structure PerJobWorld where
  db : Database
  phase : PerJobPhase
  threw : Bool := false
  cut : Bool := false
  settled : List (JobAttempt × Settlement) := []
  lost : List JobAttempt := []
  revived : List JobAttempt := []

/-- What a call leaves: `gen_random_uuid()` gave ids that are new. -/
structure PerJobCall.Ran (c : PerJobCall) (name : String) (noMultiMutationCte : Bool)
    (may : Database → Statement → Prop) (i : ReinsertInput) (db db' : Database) : Prop where
  fresh : FreshIds i.toFailInput (c.selects name) db
  may : may db (c.statement name noMultiMutationCte i)
  exec : (c.statement name noMultiMutationCte i).exec db = .ok db'

/-- What a call leaves that is cut short: its statements run inline, and one after its delete is rejected. -/
structure PerJobCall.CutShort (c : PerJobCall) (name : String) (noMultiMutationCte ownPool : Bool) (i : ReinsertInput)
    (db db' : Database) : Prop where
  multi : noMultiMutationCte = true
  inline : ownPool = false
  left : ∃ input call n, c.several name i = some (input, call) ∧ 2 ≤ n ∧ n < call.statements input db ∧
    (call.sent input db).after db n = db'

namespace PerJobWorld

/-- How often the calls settled a job. -/
def timesSettled (w : PerJobWorld) (a : JobAttempt) : ℕ := (w.settled.map Prod.fst).count a

/-- The statement of another session. -/
def outside (b : Batch) (db' : Database) (w : PerJobWorld) : PerJobWorld :=
  { w with
    db := db'
    lost := (b.jobs.filter fun a => w.db.holds b.name a && !db'.holds b.name a) ++ w.lost
    revived := (b.jobs.filter fun a => !w.db.holds b.name a && db'.holds b.name a) ++ w.revived }

/-- A call that committed. -/
def ran (b : Batch) (c : PerJobCall) (db' : Database) (phase : PerJobPhase) (w : PerJobWorld) : PerJobWorld :=
  { w with
    db := db'
    phase := phase
    settled := ((c.items.map Prod.fst).filter (w.db.holds b.name)).map (fun a => (a, c.kind)) ++ w.settled }

/-- A call that was cut short: it settled the jobs it has put back. -/
def cutShort (b : Batch) (c : PerJobCall) (db' : Database) (phase : PerJobPhase) (w : PerJobWorld) : PerJobWorld :=
  { w with
    db := db'
    phase := phase
    cut := true
    settled := ((c.items.map Prod.fst).filter fun a => w.db.holds b.name a &&
      db'.jobs.any fun j => decide (j.jobKey = (b.name, a.id))).map (fun a => (a, c.kind)) ++ w.settled }

/-- One step. `may` says which statements, of this worker or another session, the run has, and `ownPool` whether pg-boss
owns the pool, so that the statements of a call share a transaction. -/
inductive Step (b : Batch) (noMultiMutationCte ownPool : Bool) (may : Database → Statement → Prop) (w : PerJobWorld) :
    PerJobWorld → Prop
  | outside (s : Statement) (db' : Database) (hmay : may w.db s) (hexec : s.exec w.db = .ok db') :
    Step b noMultiMutationCte ownPool may w (w.outside b db')
  | answered (c : PerJobCall) (rest : List PerJobCall) (i : ReinsertInput) (db' : Database)
    (hphase : w.phase = .settling (c :: rest)) (hran : c.Ran b.name noMultiMutationCte may i w.db db') :
    Step b noMultiMutationCte ownPool may w (w.ran b c db' (.settling rest))
  | unanswered (c : PerJobCall) (rest : List PerJobCall) (i : ReinsertInput) (db' : Database)
    (hphase : w.phase = .settling (c :: rest)) (hran : c.Ran b.name noMultiMutationCte may i w.db db') :
    Step b noMultiMutationCte ownPool may w { w.ran b c db' .failing with threw := true }
  -- a call that left nothing, or the spy tracking after the last one
  | threw (rest : List PerJobCall) (hphase : w.phase = .settling rest) :
    Step b noMultiMutationCte ownPool may w { w with phase := .failing, threw := true }
  | tracked (hphase : w.phase = .settling []) : Step b noMultiMutationCte ownPool may w { w with phase := .returned }
  | failed (err : Option Json) (i : ReinsertInput) (db' : Database) (hphase : w.phase = .failing)
    (hran : (b.failAll err).Ran b.name noMultiMutationCte may i w.db db') :
    Step b noMultiMutationCte ownPool may w (w.ran b (b.failAll err) db' .returned)
  | failUnanswered (err : Option Json) (i : ReinsertInput) (db' : Database) (hphase : w.phase = .failing)
    (hran : (b.failAll err).Ran b.name noMultiMutationCte may i w.db db') :
    Step b noMultiMutationCte ownPool may w (w.ran b (b.failAll err) db' .raised)
  | failThrew (hphase : w.phase = .failing) : Step b noMultiMutationCte ownPool may w { w with phase := .raised }
  | cutShort (c : PerJobCall) (rest : List PerJobCall) (i : ReinsertInput) (db' : Database)
    (hphase : w.phase = .settling (c :: rest)) (hcut : c.CutShort b.name noMultiMutationCte ownPool i w.db db') :
    Step b noMultiMutationCte ownPool may w { w.cutShort b c db' .failing with threw := true }
  | failCutShort (err : Option Json) (i : ReinsertInput) (db' : Database) (hphase : w.phase = .failing)
    (hcut : (b.failAll err).CutShort b.name noMultiMutationCte ownPool i w.db db') :
    Step b noMultiMutationCte ownPool may w (w.cutShort b (b.failAll err) db' .raised)

/-- Any number of steps. -/
abbrev Run (b : Batch) (noMultiMutationCte ownPool : Bool) (may : Database → Statement → Prop) :
    PerJobWorld → PerJobWorld → Prop := Relation.ReflTransGen (Step b noMultiMutationCte ownPool may)

/-- The batch is as its fetch left it, and the handler's value has been reduced to the calls. -/
structure Start (b : Batch) (calls : List PerJobCall) (w : PerJobWorld) : Prop where
  allowed : w.db.Allowed
  claimed : ∀ a ∈ b.jobs, ∃ j ∈ w.db.jobs, j.name = b.name ∧ j.attempt = a ∧ j.state = .active ∧ j.startedOn.isSome = true
  phase : w.phase = .settling calls
  threw : w.threw = false
  cut : w.cut = false
  settled : w.settled = []
  lost : w.lost = []
  revived : w.revived = []

end PerJobWorld

end PgBoss
