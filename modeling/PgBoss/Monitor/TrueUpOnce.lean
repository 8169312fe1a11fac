import PgBoss.Monitor.TrueUpWindows

/-!
# One recount for each job

A run compares every snapshot past the anchor with the jobs of its own window, and windows are
disjoint. Two runs raise the same counters in either order. The second adds nothing as long as its
windows start no earlier than those of the first: two snapshots that agree on their end and on when
they were captured may change places between the runs, and a job is then counted in both.
-/

namespace PgBoss

/-- The snapshots recorded: keyed, with counters that fit their columns. -/
structure StatsTable where
  rows : List StatsRow
  keys : (rows.map StatsRow.key).Nodup
  int4 : ∀ s ∈ rows, ∀ d, s.delta = some d →
    d.createdDelta < 2 ^ 31 ∧ d.completedDelta < 2 ^ 31 ∧ d.failedDelta < 2 ^ 31

/-- A run of the true-up: when it runs, and the order in which its plan reads snapshots that agree on both columns
it sorts by. -/
structure TrueUpRun where
  now : ℤ
  rank : StatsKey → ℕ

namespace TrueUpRun

variable (r : TrueUpRun) (queues : List Queue) (names : List String) (jobs : List Job) (rows : List StatsRow)

/-- The snapshots after the run. -/
def trueUp : List StatsRow := trueUpQueueStats r.now r.rank queues names jobs rows

/-- Where the window starts over which the run revises a snapshot. -/
def start (s : StatsRow) : Option ℤ := windowStart (trueUpWin r.now r.rank queues names rows s.name) s.key

end TrueUpRun

/-- A snapshot raised to what the job table holds in its window, if it has one. -/
def raisedFrom (start : Option ℤ) (jobs : List Job) (s : StatsRow) : StatsRow :=
  match start with
  | none => s
  | some a => { s with delta := s.delta.map fun d => d.raise (windowCount s.name a d.deltaOn jobs) }

/-- A snapshot whose counters have not gone down, and nothing else has changed. -/
structure StatsRow.Rises (s s' : StatsRow) : Prop where
  key : s'.key = s.key
  name : s'.name = s.name
  delta : ∀ d, s.delta = some d → ∃ d', s'.delta = some d' ∧ d'.deltaOn = d.deltaOn ∧
    d'.deltaSeconds = d.deltaSeconds ∧ d.createdDelta ≤ d'.createdDelta ∧
    d.completedDelta ≤ d'.completedDelta ∧ d.failedDelta ≤ d'.failedDelta

/-- What one run does: each snapshot is compared with the jobs of its window, windows of a queue are disjoint, a
snapshot at or before the anchor has none, and counters only rise. -/
structure RecountsOnce (queues : List Queue) (names : List String) (jobs : List Job) (rows : List StatsRow)
    (r : TrueUpRun) : Prop where
  recounts : r.trueUp queues names jobs rows = rows.map fun s => raisedFrom (r.start queues names rows s) jobs s
  apart : ∀ s ∈ rows, ∀ s' ∈ rows, s.name = s'.name → ∀ d d' a a' x, s.delta = some d → s'.delta = some d' →
    r.start queues names rows s = some a → r.start queues names rows s' = some a' →
      a ≤ x ∧ x < d.deltaOn → a' ≤ x ∧ x < d'.deltaOn → s = s'
  anchored : ∀ s ∈ rows, ∀ d, s.delta = some d →
    (∀ h, trueUpH r.now queues names rows s.name = some h → d.deltaOn ≤ h) → r.start queues names rows s = none
  rises : List.Forall₂ StatsRow.Rises rows (r.trueUp queues names jobs rows)

/-- What is asked of two runs over one job table, whichever comes first. -/
structure TruedUpOnce (queues : List Queue) (names : List String) (rows : List StatsRow) (first second : TrueUpRun) :
    Prop where
  recounts : ∀ r jobs, RecountsOnce queues names jobs rows r
  either : ∀ jobs, second.trueUp queues names jobs (first.trueUp queues names jobs rows) =
    first.trueUp queues names jobs (second.trueUp queues names jobs rows)
  once : ∀ jobs, (jobs.map Job.jobKey).Nodup →
    second.trueUp queues names jobs (first.trueUp queues names jobs rows) = first.trueUp queues names jobs rows

/-- Every snapshot that the second run revises over a window that holds anything was revised by the first over one
that starts no later. -/
def StartsNoEarlier (queues : List Queue) (names : List String) (rows : List StatsRow) (first second : TrueUpRun) :
    Prop :=
  ∀ s ∈ rows, ∀ d a, s.delta = some d → second.start queues names rows s = some a → a < d.deltaOn →
    ∃ b, first.start queues names rows s = some b ∧ b ≤ a

variable {queues : List Queue} {names : List String} {jobs : List Job} {rows : List StatsRow} {r first second : TrueUpRun}
  {s : StatsRow} {d : RecordedDelta} {a b stop : ℤ}

theorem trueUp_eq (hkeys : (rows.map StatsRow.key).Nodup) :
    r.trueUp queues names jobs rows = rows.map fun s => raisedFrom (r.start queues names rows s) jobs s := by
  refine List.map_congr_left fun s hs => ?_
  exact raisedRow_eq hkeys hs

theorem raisedFrom_rises (start : Option ℤ) (jobs : List Job) (s : StatsRow) : s.Rises (raisedFrom start jobs s) := by
  cases start with
  | none => exact ⟨rfl, rfl, fun d hd => ⟨d, hd, rfl, rfl, le_rfl, le_rfl, le_rfl⟩⟩
  | some a =>
    have hraised : ∀ d, s.delta = some d →
        (raisedFrom (some a) jobs s).delta = some (d.raise (windowCount s.name a d.deltaOn jobs)) := by
      intro d hd
      rw [raisedFrom, hd, Option.map_some]
    exact ⟨rfl, rfl, fun d hd => ⟨_, hraised d hd, rfl, rfl, le_max_left _ _, le_max_left _ _, le_max_left _ _⟩⟩

/-- What one run does, whatever the snapshots. -/
theorem recountsOnce (hkeys : (rows.map StatsRow.key).Nodup) (r : TrueUpRun) (jobs : List Job) :
    RecountsOnce queues names jobs rows r where
  recounts := trueUp_eq hkeys
  apart s hs s' hs' hname d d' a a' x hd hd' ha ha' hx hx' := by
    rw [TrueUpRun.start, ← hname] at ha'
    exact windowStart_apart hkeys hs hs' hd hd' ha ha' hx hx'
  anchored s hs d hd hbehind := by
    cases hstart : r.start queues names rows s with
    | none => rfl
    | some a =>
      obtain ⟨h, hanchor, hpast⟩ := anchor_lt_of_windowStart hkeys hs hd hstart
      exact absurd hpast (not_lt.mpr (hbehind h hanchor))
  rises := by
    rw [trueUp_eq hkeys, List.forall₂_map_right_iff, List.forall₂_same]
    exact fun s _ => raisedFrom_rises _ jobs s

theorem trueUp_keys (hkeys : (rows.map StatsRow.key).Nodup) :
    ((r.trueUp queues names jobs rows).map StatsRow.key).Nodup := by
  rw [trueUp_eq hkeys, List.map_map]
  have hsame : rows.map (StatsRow.key ∘ fun s => raisedFrom (r.start queues names rows s) jobs s) =
      rows.map StatsRow.key := List.map_congr_left fun s _ => (raisedFrom_rises _ jobs s).key
  rwa [hsame]

/-- After one run, another raises every snapshot over the window it has anyway. -/
theorem trueUp_trueUp (hkeys : (rows.map StatsRow.key).Nodup) :
    second.trueUp queues names jobs (first.trueUp queues names jobs rows) = rows.map fun s =>
      raisedFrom (second.start queues names rows s) jobs (raisedFrom (first.start queues names rows s) jobs s) := by
  rw [trueUp_eq (trueUp_keys hkeys), trueUp_eq hkeys, List.map_map]
  refine List.map_congr_left fun s _ => ?_
  have hstart : windowStart (trueUpWin second.now second.rank queues names (first.trueUp queues names jobs rows) s.name)
      s.key = second.start queues names rows s := windowStart_trueUpQueueStats second.now second.rank s.key
  have hrises := raisedFrom_rises (first.start queues names rows s) jobs s
  rw [trueUp_eq hkeys] at hstart
  rw [Function.comp, TrueUpRun.start, hrises.name, hrises.key, hstart]

theorem raise_comm (d : RecordedDelta) (x y : QueueStats) : (d.raise x).raise y = (d.raise y).raise x := by
  simp only [RecordedDelta.raise, max_right_comm]

/-- Raising over one window and over another comes to the same in either order. -/
theorem raisedFrom_comm (start start' : Option ℤ) (jobs : List Job) (s : StatsRow) :
    raisedFrom start jobs (raisedFrom start' jobs s) = raisedFrom start' jobs (raisedFrom start jobs s) := by
  cases start with
  | none => rfl
  | some a =>
    cases start' with
    | none => rfl
    | some b =>
      cases hd : s.delta with
      | none => simp [raisedFrom, hd]
      | some d =>
        simp only [raisedFrom, hd, Option.map_some]
        rw [raise_comm]
        rfl

/-- A longer window holds what a shorter one with the same end holds. -/
theorem inWindow_of_le {x : Option ℤ} (hba : b ≤ a) (h : inWindow (some a) stop x = true) :
    inWindow (some b) stop x = true := by
  cases x with
  | none => cases h
  | some x =>
    simp only [inWindow, Bool.and_eq_true, decide_eq_true_eq] at *
    omega

/-- A window that ends where it starts holds nothing. -/
theorem inWindow_of_stop_le {x : Option ℤ} (hstop : stop ≤ a) : inWindow (some a) stop x = false := by
  cases x with
  | none => rfl
  | some x =>
    simp only [inWindow, Bool.and_eq_false_iff, decide_eq_false_iff_not]
    omega

/-- A window holds at most what one that starts no later holds, and nothing if it ends where it starts. -/
theorem windowCount_le (h : a < stop → b ≤ a) (name : String) (jobs : List Job) :
    (windowCount name a stop jobs).createdDelta ≤ (windowCount name b stop jobs).createdDelta ∧
      (windowCount name a stop jobs).completedDelta ≤ (windowCount name b stop jobs).completedDelta ∧
      (windowCount name a stop jobs).failedDelta ≤ (windowCount name b stop jobs).failedDelta := by
  have hwindow : ∀ x : Option ℤ, inWindow (some a) stop x = true → inWindow (some b) stop x = true := by
    intro x hx
    by_cases hstop : a < stop
    · exact inWindow_of_le (h hstop) hx
    · exact nomatch (inWindow_of_stop_le (not_lt.mp hstop)).symm.trans hx
  simp only [windowCount, createdIn, finishedIn]
  refine ⟨?_, ?_, ?_⟩
  all_goals
    refine (List.monotone_filter_right jobs fun j hj => ?_).length_le
    rw [Bool.and_eq_true] at hj ⊢
    exact ⟨hj.1, hwindow _ hj.2⟩

/-- Raising over a window adds nothing to raising over one that starts no later. -/
theorem raisedFrom_raisedFrom (hd : s.delta = some d) (h : a < d.deltaOn → b ≤ a) (jobs : List Job) :
    raisedFrom (some a) jobs (raisedFrom (some b) jobs s) = raisedFrom (some b) jobs s := by
  obtain ⟨hcreated, hcompleted, hfailed⟩ := windowCount_le h s.name jobs
  simp only [raisedFrom, hd, Option.map_some, RecordedDelta.raise, max_assoc]
  rw [max_eq_left hcreated, max_eq_left hcompleted, max_eq_left hfailed]

/-- A window that ends where it starts raises nothing. -/
theorem raisedFrom_of_stop_le (hd : s.delta = some d) (h : d.deltaOn ≤ a) (jobs : List Job) :
    raisedFrom (some a) jobs s = s := by
  have hnone : windowCount s.name a d.deltaOn jobs = ⟨0, 0, 0⟩ := by
    simp only [windowCount, createdIn, finishedIn, inWindow_of_stop_le h, Bool.and_false, List.filter_false,
      List.length_nil]
  have hraise : d.raise ⟨0, 0, 0⟩ = d := by simp [RecordedDelta.raise]
  rw [raisedFrom, hd, Option.map_some, hnone, hraise, ← hd]

/-- Jobs of a queue, all created at one instant. -/
def jobsAt (name : String) (x : ℤ) (n : ℕ) : List Job :=
  (List.range n).map fun i => { id := Fin.ofNat _ i, name, startAfter := x, createdOn := x, keepUntil := x }

theorem jobsAt_keys {n : ℕ} (hn : n ≤ 2 ^ 128) (name : String) (x : ℤ) : ((jobsAt name x n).map Job.jobKey).Nodup := by
  rw [jobsAt, List.map_map]
  refine List.nodup_range.map_on fun i hi k hk hik => ?_
  have hid : Fin.ofNat (2 ^ 128) i = Fin.ofNat (2 ^ 128) k := congrArg Prod.snd hik
  have hval := congrArg Fin.val hid
  rw [Fin.val_ofNat, Fin.val_ofNat, Nat.mod_eq_of_lt, Nat.mod_eq_of_lt] at hval
  · exact hval
  · exact (List.mem_range.mp hk).trans_le hn
  · exact (List.mem_range.mp hi).trans_le hn

theorem of_mem_jobsAt {name : String} {x : ℤ} {n : ℕ} {j : Job} (hj : j ∈ jobsAt name x n) :
    j.name = name ∧ j.createdOn = x := by
  obtain ⟨i, -, rfl⟩ := List.mem_map.mp hj
  exact ⟨rfl, rfl⟩

/-- A window holds all of those jobs if it holds the instant. -/
theorem createdIn_jobsAt_of_mem {x : ℤ} (hx : a ≤ x ∧ x < stop) (name : String) (n : ℕ) :
    (createdIn name (some a) stop (jobsAt name x n)).length = n := by
  rw [createdIn, List.filter_eq_self.mpr, jobsAt, List.length_map, List.length_range]
  intro j hj
  obtain ⟨hname, hcreated⟩ := of_mem_jobsAt hj
  simp [hname, hcreated, inWindow, hx]

/-- A window that starts later holds none of them. -/
theorem createdIn_jobsAt_of_lt {x : ℤ} (hx : x < b) (name : String) (n : ℕ) :
    createdIn name (some b) stop (jobsAt name x n) = [] := by
  refine List.filter_eq_nil_iff.mpr fun j hj => ?_
  obtain ⟨-, hcreated⟩ := of_mem_jobsAt hj
  simp [hcreated, inWindow, hx]

/-- A run whose windows start no earlier than those of the run before adds nothing to it. -/
theorem trueUp_again (hkeys : (rows.map StatsRow.key).Nodup) (h : StartsNoEarlier queues names rows first second)
    (jobs : List Job) :
    second.trueUp queues names jobs (first.trueUp queues names jobs rows) = first.trueUp queues names jobs rows := by
  rw [trueUp_trueUp hkeys, trueUp_eq hkeys]
  refine List.map_congr_left fun s hs => ?_
  cases hd : s.delta with
  | none =>
    have hnone : ∀ start, raisedFrom start jobs s = s := by
      rintro (_ | a)
      · rfl
      · simp only [raisedFrom, hd, Option.map_none]
        rw [← hd]
    rw [hnone, hnone]
  | some d =>
    cases ha : second.start queues names rows s with
    | none => rfl
    | some a =>
      have hbefore := h s hs d a hd ha
      cases hb : first.start queues names rows s with
      | some b =>
        refine raisedFrom_raisedFrom hd (fun hlt => ?_) jobs
        obtain ⟨b', hb', hle⟩ := hbefore hlt
        rwa [Option.some.inj (hb.symm.trans hb')]
      | none =>
        -- the window of the second run holds nothing
        refine raisedFrom_of_stop_le hd (not_lt.mp fun hlt => ?_) jobs
        obtain ⟨b', hb', -⟩ := hbefore hlt
        exact nomatch hb.symm.trans hb'

/-- Jobs created where a window starts, more of them than its snapshot holds, raise it, unless the run before had them
in its window of the snapshot. -/
theorem start_le_of_again (hkeys : (rows.map StatsRow.key).Nodup) (hs : s ∈ rows) (hd : s.delta = some d)
    (ha : second.start queues names rows s = some a) (hlt : a < d.deltaOn)
    (honce : second.trueUp queues names (jobsAt s.name a (d.createdDelta + 1))
        (first.trueUp queues names (jobsAt s.name a (d.createdDelta + 1)) rows) =
      first.trueUp queues names (jobsAt s.name a (d.createdDelta + 1)) rows) :
    ∃ b, first.start queues names rows s = some b ∧ b ≤ a := by
  rw [trueUp_trueUp hkeys, trueUp_eq hkeys] at honce
  have hrow := List.map_inj_left.mp honce s hs
  cases hfirst : first.start queues names rows s with
  | none =>
    rw [hfirst, ha] at hrow
    have hdelta := congrArg StatsRow.delta hrow
    simp only [raisedFrom, hd, Option.map_some, Option.some.injEq] at hdelta
    have hcreated := congrArg (fun d => d.createdDelta) hdelta
    simp only [RecordedDelta.raise, windowCount, createdIn_jobsAt_of_mem (And.intro le_rfl hlt)] at hcreated
    omega
  | some b =>
    refine ⟨b, rfl, not_lt.mp fun hab => ?_⟩
    rw [hfirst, ha] at hrow
    have hdelta := congrArg StatsRow.delta hrow
    simp only [raisedFrom, hd, Option.map_some, Option.some.injEq] at hdelta
    have hcreated := congrArg (fun d => d.createdDelta) hdelta
    simp only [RecordedDelta.raise, windowCount, createdIn_jobsAt_of_mem (And.intro le_rfl hlt),
      createdIn_jobsAt_of_lt hab, List.length_nil] at hcreated
    omega

/-- Two runs do what is asked of them if and only if the windows of the second start no earlier. -/
theorem truedUpOnce_iff (t : StatsTable) (queues : List Queue) (names : List String) (first second : TrueUpRun) :
    TruedUpOnce queues names t.rows first second ↔ StartsNoEarlier queues names t.rows first second := by
  constructor
  · intro h s hs d a hd ha hlt
    have hfits : d.createdDelta + 1 ≤ 2 ^ 128 := by
      have := (t.int4 s hs d hd).1
      omega
    exact start_le_of_again t.keys hs hd ha hlt (h.once _ (jobsAt_keys hfits s.name a))
  · intro h
    refine ⟨recountsOnce t.keys, fun jobs => ?_, fun jobs _ => trueUp_again t.keys h jobs⟩
    rw [trueUp_trueUp t.keys, trueUp_trueUp t.keys]
    exact List.map_congr_left fun s _ => raisedFrom_comm _ _ jobs s

/-- A run over the windows of an earlier one, the same order of reading, raises nothing more. -/
theorem startsNoEarlier_self (queues : List Queue) (names : List String) (rows : List StatsRow) (r : TrueUpRun) :
    StartsNoEarlier queues names rows r r := fun _ _ _ a _ ha _ => ⟨a, ha, le_rfl⟩

section Twins

/-- A queue with the retentions a queue has by default. -/
def twinsQueue : Queue where
  name := "q"
  policy := .standard
  retryLimit := 2
  retryDelay := 0
  retryBackoff := false
  retryDelayMax := none
  expireSeconds := 900
  retentionSeconds := 1209600
  deletionSeconds := 604800
  deadLetter := none
  heartbeatSeconds := none

/-- The snapshot that anchors, and two that recorded the same end at the same instant. -/
def twinsRows : List StatsRow :=
  [⟨1, "q", 70 * microsPerSecond, some ⟨⟨0, 0, 0⟩, none, 60 * microsPerSecond⟩⟩,
    ⟨2, "q", 130 * microsPerSecond, some ⟨⟨0, 0, 0⟩, some 60, 120 * microsPerSecond⟩⟩,
    ⟨3, "q", 130 * microsPerSecond, some ⟨⟨0, 0, 0⟩, some 60, 120 * microsPerSecond⟩⟩]

def twins : StatsTable where
  rows := twinsRows
  keys := by decide
  int4 := by decide

/-- A run whose plan reads the snapshots in the order they were inserted. -/
def insertionOrder : TrueUpRun := ⟨200 * microsPerSecond, fun key => key.1.val⟩

/-- One that reads those updated by the other run last. -/
def updatedLast : TrueUpRun := ⟨200 * microsPerSecond, fun key => if key.1 = 2 then 4 else key.1.val⟩

/-- One late job is counted in both of two snapshots that tie. -/
theorem twins_countedTwice :
    (((updatedLast.trueUp [twinsQueue] ["q"] (jobsAt "q" (100 * microsPerSecond) 1)
      (insertionOrder.trueUp [twinsQueue] ["q"] (jobsAt "q" (100 * microsPerSecond) 1) twins.rows)).map
        fun s => s.delta.map fun d => d.createdDelta) = [some 0, some 1, some 1]) ∧
      ((insertionOrder.trueUp [twinsQueue] ["q"] (jobsAt "q" (100 * microsPerSecond) 1) twins.rows).map
        fun s => s.delta.map fun d => d.createdDelta) = [some 0, some 1, some 0] ∧
      ¬ TruedUpOnce [twinsQueue] ["q"] twins.rows insertionOrder updatedLast := by
  have hfirst : (insertionOrder.trueUp [twinsQueue] ["q"] (jobsAt "q" (100 * microsPerSecond) 1) twins.rows).map
      (fun s => s.delta.map fun d => d.createdDelta) = [some 0, some 1, some 0] := by decide +kernel
  have hsecond : (updatedLast.trueUp [twinsQueue] ["q"] (jobsAt "q" (100 * microsPerSecond) 1)
      (insertionOrder.trueUp [twinsQueue] ["q"] (jobsAt "q" (100 * microsPerSecond) 1) twins.rows)).map
      (fun s => s.delta.map fun d => d.createdDelta) = [some 0, some 1, some 1] := by decide +kernel
  refine ⟨hsecond, hfirst, fun h => ?_⟩
  rw [h.once _ (jobsAt_keys (by decide) _ _), hfirst] at hsecond
  exact absurd hsecond (by decide)

end Twins

end PgBoss
