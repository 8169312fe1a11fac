import PgBoss.Plans.QueueClaim

/-!
# Supervising passes

Any number of instances supervise the same queues. A monitor pass claims the queues that are due,
counts them, and copies the queue rows it counted into the history, each in a statement of its own;
one that finds the stats lock taken hands its claims back instead. A maintenance pass claims queues,
works through them, and hands back those it did not finish. Any time may go by between two
statements of a pass; a statement happens at one instant of the clock.

Kept beside the tables: the claims not handed back and the claims that releases cleared, and which
count last wrote a row's counters. All lists hold the latest entry first.
-/

namespace PgBoss

/-- A claim on a queue, by the pass that made it. -/
structure QueueClaim (ι : Type*) where
  queue : String
  kind : ClaimKind
  stamp : ℤ
  owner : ι

/-- A claim that a release cleared: the stamp it had, and the one the releasing pass had written. -/
structure ClearedClaim where
  queue : String
  kind : ClaimKind
  was : ℤ
  stamp : ℤ
  deriving DecidableEq, Repr

/-- A pass under way: the queues it claimed and the stamp it wrote on them, and the number of its count once it has
counted them. -/
structure SupervisePass where
  kind : ClaimKind
  names : List String
  stamp : ℤ
  serial : Option ℕ := none
  deriving DecidableEq, Repr

/-- The counters a count wrote on a queue. -/
structure CountedDeltas where
  serial : ℕ
  queue : String
  deltas : Throughput
  deriving DecidableEq, Repr

/-- A recorded snapshot: the counters of the queue row it copied, the count of the pass that recorded it, and the
count that had written them. -/
structure QueueSnapshot where
  queue : String
  deltas : Throughput
  capturedOn : ℤ
  recordedBy : ℕ
  source : Option ℕ
  deriving DecidableEq, Repr

/-- The queue rows, the clock, the passes under way, and the history. -/
structure SuperviseWorld (ι : Type*) where
  queues : String → SupervisedQueue
  clock : ℤ
  passes : ι → Option SupervisePass
  claims : List (QueueClaim ι) := []
  cleared : List ClearedClaim := []
  source : String → Option ℕ := fun _ => none
  serials : ℕ := 0
  counted : List CountedDeltas := []
  history : List QueueSnapshot := []

namespace SuperviseWorld

variable {ι : Type*} [DecidableEq ι]

/-- The queues a claim takes: those asked for that are due, less the rows another session holds where it skips them. -/
def claimable (w : SuperviseWorld ι) (kind : ClaimKind) (interval : ℤ) (names skipped : List String) : List String :=
  names.dedup.filter fun name => !decide (name ∈ skipped) && (w.queues name).due interval w.clock kind

/-- `trySetQueueMonitorTime`, or `trySetQueueDeletionTime`: the pass begins. -/
def claim (w : SuperviseWorld ι) (i : ι) (kind : ClaimKind) (interval : ℤ) (names skipped : List String) :
    SuperviseWorld ι :=
  let claimed := w.claimable kind interval names skipped
  { w with
    queues := fun name =>
      if name ∈ claimed then (w.queues name).setClaimOn (some w.clock) kind else w.queues name
    passes := Function.update w.passes i (some { kind, names := claimed, stamp := w.clock })
    claims := claimed.map (fun name => ⟨name, kind, w.clock, i⟩) ++ w.claims }

/-- The counters `cacheQueueStats` writes on a queue, in a transaction that began at `jobNow`, from what its
snapshot held of `delta_on` and the jobs. -/
def counters (w : SuperviseWorld ι) (jobNow passSeconds : ℤ) (snapshot : String → Option ℤ × List Job)
    (name : String) : Throughput :=
  let stop := deltaWindowEnd jobNow
  let resetMax := deltaResetMax passSeconds
  throughputAssignments (getQueueStats name (snapshot name).1 stop resetMax (snapshot name).2) stop resetMax
    (w.queues name).throughput

/-- `cacheQueueStats`, which got the stats lock. -/
def count (w : SuperviseWorld ι) (i : ι) (p : SupervisePass) (jobNow passSeconds : ℤ)
    (snapshot : String → Option ℤ × List Job) : SuperviseWorld ι :=
  { w with
    queues := fun name =>
      if name ∈ p.names then
        { w.queues name with
          monitorOn := some jobNow
          throughput := w.counters jobNow passSeconds snapshot name }
      else w.queues name
    passes := Function.update w.passes i (some { p with serial := some w.serials })
    source := fun name => if name ∈ p.names then some w.serials else w.source name
    serials := w.serials + 1
    counted := p.names.map (fun name => ⟨w.serials, name, w.counters jobNow passSeconds snapshot name⟩) ++ w.counted }

/-- A release, which does `set` to the rows named: the pass ends. -/
def release (w : SuperviseWorld ι) (i : ι) (p : SupervisePass) (names : List String)
    (set : SupervisedQueue → SupervisedQueue) : SuperviseWorld ι :=
  { w with
    queues := fun name => if name ∈ names then set (w.queues name) else w.queues name
    passes := Function.update w.passes i none
    claims := w.claims.filter fun c => !decide (c.owner = i ∧ c.kind = p.kind ∧ c.stamp = p.stamp ∧ c.queue ∈ names ∧
      (set (w.queues c.queue)).claimOn p.kind = none)
    cleared := names.filterMap (fun name =>
      if (set (w.queues name)).claimOn p.kind = none then
        ((w.queues name).claimOn p.kind).map fun was => ⟨name, p.kind, was, p.stamp⟩
      else none) ++ w.cleared }

/-- `cacheQueueStats`, which lost the stats lock. -/
def loseLock (w : SuperviseWorld ι) (i : ι) (p : SupervisePass) : SuperviseWorld ι :=
  w.release i p p.names SupervisedQueue.releaseMonitorTime

/-- `releaseQueueDeletionTime`, for the queues the pass did not finish. -/
def handBack (w : SuperviseWorld ι) (i : ι) (p : SupervisePass) (names : List String) : SuperviseWorld ι :=
  w.release i p names fun q => q.releaseDeletionTime p.stamp

/-- `insertQueueStats`, for the queues the pass has counted: the pass is done with the history. -/
def insertQueueStats (w : SuperviseWorld ι) (i : ι) (p : SupervisePass) (serial : ℕ) : SuperviseWorld ι :=
  { w with
    passes := Function.update w.passes i none
    history := p.names.map (fun name => ⟨name, (w.queues name).throughput, w.clock, serial, w.source name⟩) ++ w.history }

/-- One statement of a pass, or time going by. A pass claims at no shorter an interval than `shortest`; `mayRelease`
says when a pass may lose the stats lock, `mayRecord` when one may insert its snapshots. -/
inductive Step (shortest : ℤ) (mayRelease : SuperviseWorld ι → SupervisePass → Prop)
    (mayRecord : SuperviseWorld ι → SupervisePass → ℕ → Prop) (w : SuperviseWorld ι) : SuperviseWorld ι → Prop
  | tick (now : ℤ) (hnow : w.clock ≤ now) : Step shortest mayRelease mayRecord w { w with clock := now }
  | claim (i : ι) (kind : ClaimKind) (interval : ℤ) (names skipped : List String) (hidle : w.passes i = none)
      (hinterval : shortest ≤ interval) :
      Step shortest mayRelease mayRecord w (w.claim i kind interval names skipped)
  | count (i : ι) (p : SupervisePass) (jobNow passSeconds : ℤ) (snapshot : String → Option ℤ × List Job)
      (hp : w.passes i = some p) (hkind : p.kind = .monitor) (hserial : p.serial = none) :
      Step shortest mayRelease mayRecord w (w.count i p jobNow passSeconds snapshot)
  | loseLock (i : ι) (p : SupervisePass) (hp : w.passes i = some p) (hkind : p.kind = .monitor)
      (hserial : p.serial = none) (hmay : mayRelease w p) :
      Step shortest mayRelease mayRecord w (w.loseLock i p)
  | record (i : ι) (p : SupervisePass) (serial : ℕ) (hp : w.passes i = some p) (hserial : p.serial = some serial)
      (hmay : mayRecord w p serial) : Step shortest mayRelease mayRecord w (w.insertQueueStats i p serial)
  | handBack (i : ι) (p : SupervisePass) (names : List String) (hp : w.passes i = some p) (hkind : p.kind = .maintain)
      (hnames : names ⊆ p.names) : Step shortest mayRelease mayRecord w (w.handBack i p names)
  | finish (i : ι) : Step shortest mayRelease mayRecord w { w with passes := Function.update w.passes i none }
  | refresh (name : String) (jobNow : ℤ) :
      Step shortest mayRelease mayRecord w { w with
        queues := Function.update w.queues name { w.queues name with monitorOn := some jobNow } }

/-- Any number of steps. -/
abbrev Run (shortest : ℤ) (mayRelease : SuperviseWorld ι → SupervisePass → Prop)
    (mayRecord : SuperviseWorld ι → SupervisePass → ℕ → Prop) : SuperviseWorld ι → SuperviseWorld ι → Prop :=
  Relation.ReflTransGen (Step shortest mayRelease mayRecord)

/-- No pass is under way, and nothing has been claimed, counted or recorded yet. -/
structure Start (w : SuperviseWorld ι) : Prop where
  passes : ∀ i, w.passes i = none
  claims : w.claims = []
  cleared : w.cleared = []
  source : ∀ name, w.source name = none
  counted : w.counted = []
  history : w.history = []

/-- A pass under way is the one that took a step, or was under way before. -/
theorem of_passes_update {passes : ι → Option SupervisePass} {i k : ι} {p : Option SupervisePass} {q : SupervisePass}
    (h : Function.update passes i p k = some q) : (k = i ∧ p = some q) ∨ (k ≠ i ∧ passes k = some q) := by
  by_cases hk : k = i
  · subst hk
    rw [Function.update_self] at h
    exact .inl ⟨rfl, h⟩
  · rw [Function.update_of_ne hk] at h
    exact .inr ⟨hk, h⟩

/-- A pass that ends leaves the other passes. -/
theorem of_ended {passes : ι → Option SupervisePass} {i k : ι} {p : SupervisePass}
    (h : Function.update passes i none k = some p) : k ≠ i ∧ passes k = some p := by
  rcases of_passes_update h with ⟨-, hnone⟩ | hk
  · cases hnone
  · exact hk

omit [DecidableEq ι] in
/-- The queues a claim takes are due, and named once. -/
theorem claimable_spec {w : SuperviseWorld ι} {kind : ClaimKind} {interval : ℤ} {names skipped : List String} :
    (w.claimable kind interval names skipped).Nodup ∧
      ∀ name ∈ w.claimable kind interval names skipped, (w.queues name).due interval w.clock kind = true := by
  refine ⟨(List.nodup_dedup names).filter _, fun name hname => ?_⟩
  have hkeep := (List.mem_filter.mp hname).2
  rw [Bool.and_eq_true] at hkeep
  exact hkeep.2

end SuperviseWorld

end PgBoss
