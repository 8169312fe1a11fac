import PgBoss.Plans.CrashRestarts

/-!
# Histories of process lives

Lives of processes on hosts that may share names, those on one name and host one after the other. A history has the table
and, latest first, every life with its row as last written, whether or not the table still has it. The table has the
database's times. When its process started is what a life takes from the clock of its host, anew for each count. A PgBoss
object that is started again in its process is another life, and its registration replaces the row.
-/

namespace PgBoss

open Relational

/-- A life of an instance. Its row is `numbered` where the count in it was made when all the lives in a row that crashed
right before it were dead. -/
structure ProcessLife where
  row : InstanceRow
  ended : Bool := false
  kept : Bool := true
  numbered : Bool
  deriving DecidableEq

namespace ProcessLife

variable (x : ProcessLife)

def stopped : Bool := x.row.stoppedOn.isSome

/-- It ended without `stop()`. -/
def crashed : Bool := x.ended && !x.stopped

/-- What a count of it is run with. -/
def counter (processStart : Timestamp) : CrashCounter := ⟨x.row.id, x.row.name, x.row.host, x.row.pid, processStart⟩

/-- It stopped, or a count can tell that it crashed. -/
def dead (now : Timestamp) (p : CrashCounter) : Bool := x.stopped || p.dead now x.row

end ProcessLife

/-- How many lives in a row, the latest first, ended without `stop()`. -/
def crashRun (lives : List ProcessLife) : ℕ := (lives.takeWhile ProcessLife.crashed).length

/-- A history of lives. -/
structure InstanceHistory where
  table : List InstanceRow := []
  lives : List ProcessLife := []

/-- What happens: a life registers, counts, prunes, beats, stops or crashes, and maintenance deletes rows. -/
inductive LifeEvent
  | register (now : Timestamp) (id : Uuid) (name : Option String) (host : String) (pid heartbeatSeconds : Int)
  | count (now processStart : Timestamp) (id : Uuid)
  | prune (now : Timestamp) (id : Uuid) (keep : ℕ) (locked : List Uuid)
  | trim (now : Timestamp) (keep : ℕ) (locked : List Uuid)
  | deleteOld (now : Timestamp)
  | beat (now : Timestamp) (id : Uuid)
  | stop (now : Timestamp) (id : Uuid)
  | crash (id : Uuid)

namespace InstanceHistory

variable (w : InstanceHistory)

/-- The latest life of an id. -/
def life (id : Uuid) : Option ProcessLife := w.lives.find? fun x => x.row.id = id

/-- The lives on a name and host. -/
def slot (name : Option String) (host : String) : List ProcessLife :=
  w.lives.filter fun x => decide (x.row.name = name) && decide (x.row.host = host)

/-- The lives on its name and host that came before a life, and those that came after it. -/
def before (x : ProcessLife) : List ProcessLife :=
  (w.slot x.row.name x.row.host).filter fun y => decide (y.row.startedOn < x.row.startedOn)

def after (x : ProcessLife) : List ProcessLife :=
  (w.slot x.row.name x.row.host).filter fun y => decide (x.row.startedOn < y.row.startedOn)

/-- Changes the life of the id that is under way. -/
def setLife (id : Uuid) (f : ProcessLife → ProcessLife) : List ProcessLife :=
  w.lives.map fun x => if x.row.id = id ∧ x.ended = false then f x else x

/-- A life behind the count of another. -/
def counted (now processStart : Timestamp) (me x : ProcessLife) : ProcessLife :=
  let crashed := (me.counter processStart).crashed now me.row w.table
  if x.kept && CrashCounter.counts me.row crashed x.row then
    { x with
      row := CrashCounter.countRow me.row crashed x.row
      numbered := ((w.before x).takeWhile ProcessLife.crashed).all fun y => y.dead now (me.counter processStart) }
  else x

/-- Rows are deleted. -/
def delete (deleted : InstanceRow → Bool) : InstanceHistory where
  table := w.table.filter fun i => !deleted i
  lives := w.lives.map fun x => { x with kept := x.kept && !deleted x.row }

/-- What an event deletes, or replaces. -/
def deletes : LifeEvent → InstanceRow → Bool
  | .register _ id _ _ _ _ => fun i => i.id = id
  | .prune now id keep locked => fun i => (w.life id).any fun x =>
      instancePruned now (pruneInstanceWhere id x.row.name x.row.host) keep (fun i => i.id ∈ locked) w.table i
  | .trim now keep locked => instancePruned now (fun _ => true) keep (fun i => i.id ∈ locked) w.table
  | .deleteOld now => InstanceRow.old now
  | _ => fun _ => false

/-- A step of a history. -/
def step : LifeEvent → InstanceHistory
  | .register now id name host pid heartbeatSeconds =>
    { table := registerInstance now id name host pid heartbeatSeconds w.table
      lives :=
        { row := { id, name, host, pid, heartbeatSeconds, startedOn := now, heartbeatOn := now }
          numbered := (w.slot name host).head?.all fun x => !x.crashed } :: (w.delete fun i => i.id = id).lives }
  | .count now processStart id =>
    match w.life id with
    | some me =>
      { table := countCrashRestarts now (me.counter processStart) w.table
        lives := w.lives.map (w.counted now processStart me) }
    | none => w
  | .beat now id =>
    match w.life id with
    | some x =>
      { table := heartbeatInstance now id x.row.name x.row.host x.row.pid x.row.heartbeatSeconds x.row.startedOn w.table
        lives := w.setLife id fun x => { x with row := { x.row with heartbeatOn := now } } }
    | none => w
  | .stop now id =>
    { table := stopInstance now id w.table
      lives := w.setLife id fun x => { x with row := { x.row with stoppedOn := some now }, ended := true } }
  | .crash id => { w with lives := w.setLife id fun x => { x with ended := true } }
  | e => w.delete (w.deletes e)

/-- A life of the id is under way. -/
def Running (id : Uuid) : Prop := ∃ x ∈ w.lives, x.row.id = id ∧ x.ended = false

/-- What can happen: only a life under way does anything. One registers where those before it of its id, and on its name
and host, are over, later by the database's clock than they started and last beat. -/
def Possible : LifeEvent → Prop
  | .register now id name host _ _ =>
    (∀ x ∈ w.lives, x.row.id = id → x.ended = true) ∧
      ∀ x ∈ w.slot name host, x.ended = true ∧ x.row.startedOn < now ∧ x.row.heartbeatOn ≤ now
  | .count _ _ id => w.Running id
  | .prune _ id _ _ => w.Running id
  | .beat now id => ∃ x ∈ w.lives, x.row.id = id ∧ x.ended = false ∧ x.row.heartbeatOn ≤ now
  | .stop _ id => w.Running id
  | .crash id => w.Running id
  | _ => True

/-- A count does not take a life before it on its name and host for another object of its process: no row left of one that
had its pid started when its process is said to have, or later. -/
def Seen : LifeEvent → Prop
  | .count _ processStart id => ∀ me ∈ w.lives, me.row.id = id → me.ended = false →
      ∀ x ∈ w.before me, x.kept = true → x.row.pid = me.row.pid → x.row.startedOn < processStart
  | _ => True

/-- No deletion takes from a count: behind a deleted row is a later one that stopped and stays; or its life is over, no
earlier row of its name and host stays, and it stopped or the next life is over too, whose row is deleted or was numbered. -/
def Spares (e : LifeEvent) : Prop :=
  ∀ x ∈ w.lives, x.kept = true → w.deletes e x.row = true →
    (∃ y ∈ w.after x, y.stopped = true ∧ y.kept = true ∧ w.deletes e y.row = false) ∨
      x.ended = true ∧ (∀ y ∈ w.before x, y.kept = true → w.deletes e y.row = true) ∧
        (x.stopped = true ∨ (w.after x).getLast?.any fun y => y.ended && (!y.kept || w.deletes e y.row || y.numbered))

/-- No count overlooks a row, and no deletion takes from a count. -/
def Harmless (e : LifeEvent) : Prop := w.Seen e ∧ w.Spares e

/-- The history of events, and the conditions along it. -/
def run (w : InstanceHistory) : List LifeEvent → InstanceHistory
  | [] => w
  | e :: events => run (w.step e) events

def Along (P : InstanceHistory → LifeEvent → Prop) (w : InstanceHistory) : List LifeEvent → Prop
  | [] => True
  | e :: events => P w e ∧ Along P (w.step e) events

section Decidable

instance instDecidableRunning (id : Uuid) : Decidable (w.Running id) :=
  inferInstanceAs (Decidable (∃ x ∈ w.lives, x.row.id = id ∧ x.ended = false))

instance instDecidablePossible : (e : LifeEvent) → Decidable (w.Possible e)
  | .register now id name host _ _ => inferInstanceAs (Decidable ((∀ x ∈ w.lives, x.row.id = id → x.ended = true) ∧
      ∀ x ∈ w.slot name host, x.ended = true ∧ x.row.startedOn < now ∧ x.row.heartbeatOn ≤ now))
  | .count _ _ id => instDecidableRunning w id
  | .prune _ id _ _ => instDecidableRunning w id
  | .trim _ _ _ => instDecidableTrue
  | .deleteOld _ => instDecidableTrue
  | .beat now id => inferInstanceAs (Decidable (∃ x ∈ w.lives, x.row.id = id ∧ x.ended = false ∧ x.row.heartbeatOn ≤ now))
  | .stop _ id => instDecidableRunning w id
  | .crash id => instDecidableRunning w id

instance instDecidableSeen : (e : LifeEvent) → Decidable (w.Seen e)
  | .count _ processStart id => inferInstanceAs (Decidable (∀ me ∈ w.lives, me.row.id = id → me.ended = false →
      ∀ x ∈ w.before me, x.kept = true → x.row.pid = me.row.pid → x.row.startedOn < processStart))
  | .register _ _ _ _ _ _ => instDecidableTrue
  | .prune _ _ _ _ => instDecidableTrue
  | .trim _ _ _ => instDecidableTrue
  | .deleteOld _ => instDecidableTrue
  | .beat _ _ => instDecidableTrue
  | .stop _ _ => instDecidableTrue
  | .crash _ => instDecidableTrue

instance instDecidableSpares (e : LifeEvent) : Decidable (w.Spares e) :=
  inferInstanceAs (Decidable (∀ x ∈ w.lives, x.kept = true → w.deletes e x.row = true → _ ∨ _))

instance instDecidableHarmless (e : LifeEvent) : Decidable (w.Harmless e) :=
  inferInstanceAs (Decidable (w.Seen e ∧ w.Spares e))

instance instDecidableAlong (P : InstanceHistory → LifeEvent → Prop) [∀ w e, Decidable (P w e)] :
    (w : InstanceHistory) → (events : List LifeEvent) → Decidable (Along P w events)
  | _, [] => instDecidableTrue
  | w, e :: events =>
    have := instDecidableAlong P (w.step e) events
    inferInstanceAs (Decidable (P w e ∧ Along P (w.step e) events))

end Decidable

end InstanceHistory

end PgBoss
