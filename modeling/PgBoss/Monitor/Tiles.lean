import PgBoss.Monitor.Windows

/-!
# Windows over a run of passes

A snapshot is taken after every stamp before the end of its pass's window has committed, so it holds
those that stand. Where every counting pass counts from the `delta_on` it moves, the windows tile: the
try-lock alone does not see to that, since the snapshot is older than the lock.
-/

namespace PgBoss

open Tiling

variable {ι : Type*} {name : String} {may : CountedPass → Prop} {w w' w₀ : MonitorWorld ι}

/-- The rows of a snapshot hold every stamp before `stop` that stands in the job rows. -/
structure Sees (rows : List Job) (stop : ℤ) (jobs : List Job) : Prop where
  keys : (rows.map Job.jobKey).Nodup
  stamps : ∀ kind, ∀ j ∈ jobs, ∀ c, j.stamped kind = some c → c < stop →
    ∃ i ∈ rows, i.jobKey = j.jobKey ∧ i.stamped kind = some c

/-- A stamp that commits within the lag lies ahead of the window of a pass that has read the clock. -/
theorem Sees.commit {rows jobs' : List Job} {stop : ℤ} (h : Sees rows stop w.jobs) (hclock : stop + deltaLag ≤ w.clock)
    (hcommits : w.Commits jobs') : Sees rows stop jobs' where
  keys := h.keys
  stamps kind j hj c hc hstop := by
    rcases hcommits.lag kind j hj c hc with ⟨i, hi, hkey, hstamped⟩ | hlag
    · obtain ⟨r, hr, hrkey, hrstamped⟩ := h.stamps kind i hi c hstamped hstop
      exact ⟨r, hr, hrkey.trans hkey, hrstamped⟩
    · omega

namespace MonitorWorld

/-- What every reachable state keeps: snapshots, under way and counted, hold the stamps behind their windows' ends. -/
structure Seen (w : MonitorWorld ι) : Prop where
  keys : (w.jobs.map Job.jobKey).Nodup
  clock : ∀ i p, w.passes i = some p → p.jobNow ≤ w.clock
  countedClock : ∀ p ∈ w.counted, p.stop + deltaLag ≤ w.clock
  snapshots : ∀ i p s, w.passes i = some p → p.snapshot = some s → Sees s.2 (deltaWindowEnd p.jobNow) w.jobs
  counted : ∀ p ∈ w.counted, Sees p.seen p.stop w.jobs

/-- Passes go on as they were, or end. -/
structure GoesOn (w w' : MonitorWorld ι) : Prop where
  jobs : w'.jobs = w.jobs
  clock : w'.clock = w.clock
  queue : w'.queue = w.queue
  counted : w'.counted = w.counted
  passes : ∀ i p', w'.passes i = some p' → ∃ p, w.passes i = some p ∧ p'.jobNow = p.jobNow ∧ p'.snapshot = p.snapshot

theorem Seen.goesOn (h : w.Seen) (hgoes : GoesOn w w') : w'.Seen where
  keys := hgoes.jobs ▸ h.keys
  clock i p' hp' := by
    obtain ⟨p, hp, hnow, -⟩ := hgoes.passes i p' hp'
    rw [hnow, hgoes.clock]
    exact h.clock i p hp
  countedClock := by
    rw [hgoes.counted, hgoes.clock]
    exact h.countedClock
  snapshots i p' s hp' hs := by
    obtain ⟨p, hp, hnow, hsnapshot⟩ := hgoes.passes i p' hp'
    rw [hnow, hgoes.jobs]
    exact h.snapshots i p s hp (hsnapshot ▸ hs)
  counted := by
    rw [hgoes.counted, hgoes.jobs]
    exact h.counted

theorem Start.seen (h : w.Start) : w.Seen where
  keys := h.keys
  clock i p hp := nomatch (h.passes i).symm.trans hp
  countedClock := by simp [h.counted]
  snapshots i p s hp := nomatch (h.passes i).symm.trans hp
  counted := by simp [h.counted]

/-- What every reachable state keeps: each counted pass moved the `delta_on` that the one before it left. -/
structure Marked (may : CountedPass → Prop) (w : MonitorWorld ι) : Prop where
  mark : ∀ p, w.counted.head? = some p → w.queue.deltaOn = some p.after
  linked : w.counted.IsChain fun later earlier => later.before = some earlier.after
  may : ∀ p ∈ w.counted, may p

theorem Start.marked (h : w.Start) : w.Marked may where
  mark := by simp [h.counted]
  linked := by simp [h.counted]
  may := by simp [h.counted]

theorem Marked.goesOn (h : w.Marked may) (hgoes : GoesOn w w') : w'.Marked may := by
  obtain ⟨-, -, hqueue, hcounted, -⟩ := hgoes
  exact ⟨by rw [hqueue, hcounted]; exact h.mark, by rw [hcounted]; exact h.linked, by rw [hcounted]; exact h.may⟩

variable [DecidableEq ι]

theorem ended_goesOn (w : MonitorWorld ι) (i : ι) : GoesOn w (w.ended i) where
  jobs := rfl
  clock := rfl
  queue := rfl
  counted := rfl
  passes k p' hp' := by
    by_cases hk : k = i
    · simp [ended, hk] at hp'
    · exact ⟨p', by simpa [ended, hk] using hp', rfl, rfl⟩

/-- A pass under way is the one that took a step, or was under way before. -/
theorem of_update {passes : ι → Option StatsPass} {i k : ι} {p q : StatsPass}
    (h : Function.update passes i (some p) k = some q) : (k = i ∧ q = p) ∨ passes k = some q := by
  by_cases hk : k = i
  · subst hk
    rw [Function.update_self] at h
    exact .inl ⟨rfl, (Option.some.inj h).symm⟩
  · rw [Function.update_of_ne hk] at h
    exact .inr h

theorem tryAdvisoryLock_goesOn {i : ι} {p : StatsPass} (hp : w.passes i = some p) : GoesOn w (w.tryAdvisoryLock i p) := by
  have hpast : ∀ k p', Function.update w.passes i (some { p with got := true }) k = some p' →
      ∃ p, w.passes k = some p ∧ p'.jobNow = p.jobNow ∧ p'.snapshot = p.snapshot := by
    intro k p' hp'
    rcases of_update hp' with ⟨rfl, rfl⟩ | hk
    · exact ⟨p, hp, rfl, rfl⟩
    · exact ⟨p', hk, rfl, rfl⟩
  simp only [tryAdvisoryLock]
  split
  · split
    · exact ⟨rfl, rfl, rfl, rfl, hpast⟩
    · exact ended_goesOn w i
  · exact ⟨rfl, rfl, rfl, rfl, hpast⟩

/-- One step keeps what snapshots hold. -/
theorem Seen.step (h : w.Seen) (hstep : Step name may w w') : w'.Seen := by
  cases hstep with
  | begin i p hidle hsnapshot hgot =>
    refine ⟨h.keys, fun k q hq => ?_, fun q hq => (h.countedClock q hq).trans (le_max_left _ _), fun k q s hq hs => ?_,
      h.counted⟩
    · rcases of_update hq with ⟨rfl, rfl⟩ | hq
      · exact le_max_right _ _
      · exact (h.clock k q hq).trans (le_max_left _ _)
    · rcases of_update hq with ⟨rfl, rfl⟩ | hq
      · exact nomatch hsnapshot.symm.trans hs
      · exact h.snapshots k q s hq hs
  | snapshot i p hp hsnapshot =>
    refine ⟨h.keys, fun k q hq => ?_, h.countedClock, fun k q s hq hs => ?_, h.counted⟩
    · rcases of_update hq with ⟨rfl, rfl⟩ | hq
      · exact h.clock k p hp
      · exact h.clock k q hq
    · rcases of_update hq with ⟨rfl, rfl⟩ | hq
      · obtain rfl := Option.some.inj hs
        exact ⟨h.keys, fun _ j hj _ hc _ => ⟨j, hj, rfl, hc⟩⟩
      · exact h.snapshots k q s hq hs
  | tryLock i p s hp hsnapshot hgot => exact h.goesOn (tryAdvisoryLock_goesOn hp)
  | update i p s hp hsnapshot hgot hmay =>
    have hended := h.goesOn (ended_goesOn w i)
    simp only [cacheQueueStats]
    split
    · refine ⟨hended.keys, hended.clock, List.forall_mem_cons.mpr ⟨?_, h.countedClock⟩, hended.snapshots,
        List.forall_mem_cons.mpr ⟨h.snapshots i p s hp hsnapshot, h.counted⟩⟩
      have hnow := h.clock i p hp
      simp only [StatsPass.counts, deltaWindowEnd, ended]
      omega
    · exact hended
  | abort i => exact h.goesOn (ended_goesOn w i)
  | commit jobs' hcommits =>
    refine ⟨hcommits.keys, h.clock, h.countedClock, fun i p s hp hs => (h.snapshots i p s hp hs).commit ?_ hcommits,
      fun p hp => (h.counted p hp).commit (h.countedClock p hp) hcommits⟩
    have hnow := h.clock i p hp
    simp only [deltaWindowEnd]
    omega

theorem Seen.run (h : w₀.Seen) (hrun : Run name may w₀ w) : w.Seen := by
  induction hrun with
  | refl => exact h
  | tail _ hstep ih => exact ih.step hstep

/-- One step moves `delta_on` only where a pass counts, from where it was. -/
theorem Marked.step (h : w.Marked may) (hstep : Step name may w w') : w'.Marked may := by
  cases hstep with
  | begin i p hidle hsnapshot hgot => exact ⟨h.mark, h.linked, h.may⟩
  | snapshot i p hp hsnapshot => exact ⟨h.mark, h.linked, h.may⟩
  | tryLock i p s hp hsnapshot hgot => exact h.goesOn (tryAdvisoryLock_goesOn hp)
  | update i p s hp hsnapshot hgot hmay =>
    simp only [cacheQueueStats]
    split
    · rename_i hcounts
      refine ⟨fun q hq => ?_, List.isChain_cons.mpr ⟨h.mark, h.linked⟩, List.forall_mem_cons.mpr ⟨hmay hcounts, h.may⟩⟩
      obtain rfl := Option.some.inj hq
      rfl
    · exact h.goesOn (ended_goesOn w i)
  | abort i => exact h.goesOn (ended_goesOn w i)
  | commit jobs' hcommits => exact ⟨h.mark, h.linked, h.may⟩

theorem Marked.run (h : w₀.Marked may) (hrun : Run name may w₀ w) : w.Marked may := by
  induction hrun with
  | refl => exact h
  | tail _ hstep ih => exact ih.step hstep

/-- `delta_on` never moves backwards, whatever a pass counts from. -/
theorem Step.deltaOn_le (hstep : Step name may w w') {d : ℤ} (hd : w.queue.deltaOn = some d) :
    ∃ d', w'.queue.deltaOn = some d' ∧ d ≤ d' := by
  cases hstep with
  | begin i p hidle hsnapshot hgot => exact ⟨d, hd, le_rfl⟩
  | snapshot i p hp hsnapshot => exact ⟨d, hd, le_rfl⟩
  | tryLock i p s hp hsnapshot hgot => exact ⟨d, (tryAdvisoryLock_goesOn hp).queue ▸ hd, le_rfl⟩
  | update i p s hp hsnapshot hgot hmay =>
    simp only [cacheQueueStats]
    split
    · exact ⟨_, rfl, by rw [hd]; exact le_max_left d _⟩
    · exact ⟨d, hd, le_rfl⟩
  | abort i => exact ⟨d, hd, le_rfl⟩
  | commit jobs' hcommits => exact ⟨d, hd, le_rfl⟩

/-- The windows of the counted passes tile what lies behind `delta_on`, from the first pass's on. -/
structure Tiles (name : String) (w : MonitorWorld ι) : Prop where
  /-- A counted pass moves the `delta_on` that the one before it left, and forward only. -/
  linked : w.counted.IsChain fun later earlier => later.before = some earlier.after
  current : ∀ p, w.counted.head? = some p → w.queue.deltaOn = some p.after
  forward : ∀ p ∈ w.counted, ∀ b, p.before = some b → b ≤ p.after
  /-- No two windows overlap, -/
  apart : w.counted.Pairwise fun later earlier => Disjoint later.window earlier.window
  /-- and they leave no hole but gaps wider than the reset threshold. -/
  whole : ∀ first d, w.counted.getLast? = some first → w.queue.deltaOn = some d → ∀ x ∈ Set.Ico first.after d,
    ∃ p ∈ w.counted, x ∈ p.window ∨ x ∈ p.gap
  /-- A stamp in none of these is in the deltas of exactly one pass. -/
  exactlyOnce : ∀ first d, w.counted.getLast? = some first → w.queue.deltaOn = some d →
    ∀ kind, ∀ j ∈ w.jobs, j.name = name → ∀ c, j.stamped kind = some c → c ∈ Set.Ico first.after d →
      (∀ p ∈ w.counted, c ∉ p.gap) → (w.counted.map (CountedPass.tally name kind j.jobKey c)).sum = 1

end MonitorWorld

open MonitorWorld

variable [DecidableEq ι]

/-- The windows tile in every run whose counting passes count from the `delta_on` they move. -/
theorem windows_tile (hstart : w₀.Start) (hrun : Run name CountedPass.Fresh w₀ w) : w.Tiles name := by
  have hmarked : w.Marked CountedPass.Fresh := hstart.marked.run hrun
  have hseen : w.Seen := hstart.seen.run hrun
  have hlinked : Linked (w.counted.map CountedPass.move) := (List.isChain_map _).mpr hmarked.linked
  have hfits : ∀ m ∈ w.counted.map CountedPass.move, m.Fits := by
    intro m hm
    obtain ⟨p, hp, rfl⟩ := List.mem_map.mp hm
    exact (hmarked.may p hp).fits
  have hapart : w.counted.Pairwise fun later earlier => Disjoint later.window earlier.window := by
    have hdisjoint := hlinked.disjoint hfits
    rw [List.pairwise_map] at hdisjoint
    exact hdisjoint
  have hwhole : ∀ first d, w.counted.getLast? = some first → w.queue.deltaOn = some d → ∀ x ∈ Set.Ico first.after d,
      ∃ p ∈ w.counted, x ∈ p.window ∨ x ∈ p.gap := by
    intro first d hfirst hd x hx
    cases hlast : w.counted.head? with
    | none =>
      rw [List.head?_eq_none_iff.mp hlast] at hfirst
      contradiction
    | some last =>
      have hafter : d = last.after := Option.some.inj (hd.symm.trans (hmarked.mark last hlast))
      have hmfirst : (w.counted.map CountedPass.move).getLast? = some first.move := by
        rw [List.getLast?_map, hfirst, Option.map_some]
      have hmlast : (w.counted.map CountedPass.move).head? = some last.move := by
        rw [List.head?_map, hlast, Option.map_some]
      obtain ⟨m, hm, hin⟩ := hlinked.covers hfits hmfirst hmlast (hafter ▸ hx)
      obtain ⟨p, hp, rfl⟩ := List.mem_map.mp hm
      exact ⟨p, hp, hin⟩
  refine ⟨hmarked.linked, hmarked.mark, fun p _ b hbefore => CountedPass.before_le_after hbefore, hapart, hwhole, ?_⟩
  intro first d hfirst hd kind j hj hname c hc hin hgaps
  have hone : w.counted.Pairwise fun later earlier => ¬ (c ∈ later.window ∧ c ∈ earlier.window) := by
    refine hapart.imp ?_
    rintro later earlier hdisjoint ⟨hlater, hearlier⟩
    exact Set.disjoint_left.mp hdisjoint hlater hearlier
  refine sum_eq_one hone ?_ ?_ ?_
  · obtain ⟨p, hp, htaken⟩ := hwhole first d hfirst hd c hin
    exact ⟨p, hp, htaken.resolve_right (hgaps p hp)⟩
  · intro p hp hwindow
    obtain ⟨b, -, -, -, hstop⟩ := CountedPass.mem_windowFrom.mp hwindow
    have hsees := hseen.counted p hp
    obtain ⟨i, hi, hkey, hstamped⟩ := hsees.stamps kind j hj c hc hstop
    rw [← hkey]
    exact CountedPass.tally_eq_one hsees.keys hwindow hi ((congrArg Prod.fst hkey).trans hname) hstamped
  · exact fun p _ hwindow => CountedPass.tally_eq_zero hwindow

section Race

/-- A job created five seconds after `delta_on`. -/
def countedJob : Job where
  id := 1
  name := "q"
  startAfter := 5000000
  createdOn := 5000000
  keepUntil := 1209600000000

/-- A queue that was counted up to the start of the epoch. -/
def countedQueue : MonitorWorld Bool where
  jobs := [countedJob]
  queue := { deltaOn := some 0 }
  clock := 0
  passes _ := none

theorem countedQueue_start : countedQueue.Start := ⟨by decide, rfl, fun _ => rfl, rfl⟩

/-- A counting pass whose window ends a minute in. -/
def minutePass : StatsPass where
  jobNow := 70000000
  throughput := true
  advisoryLock := true
  passSeconds := 60

/-- A counting pass a second later. -/
def laterPass : StatsPass := { minutePass with jobNow := 71000000 }

/-- What a snapshot of the queue holds before a pass has counted. -/
def countedSnapshot : Option ℤ × List Job := (some 0, [countedJob])

/-- A pass takes its snapshot while another holds the lock, and tries the lock after that one has committed: both
count the job. -/
theorem staleSnapshot_overlaps : ∃ w : MonitorWorld Bool, countedQueue.Start ∧
    Run "q" (fun _ => True) countedQueue w ∧
    (w.counted.map (CountedPass.tally "q" .creation countedJob.jobKey 5000000)).sum = 2 ∧ ¬ w.Tiles "q" := by
  have hfirst := (((Relation.ReflTransGen.refl.tail (.begin false minutePass rfl rfl rfl)).tail
    (.snapshot false minutePass rfl rfl)).tail
    (.tryLock false { minutePass with snapshot := some countedSnapshot } countedSnapshot rfl rfl rfl) :
    Run "q" (fun _ => True) countedQueue _)
  have hsecond := (hfirst.tail (.begin true laterPass rfl rfl rfl)).tail (.snapshot true laterPass rfl rfl)
  have hcounted := hsecond.tail (.update false { minutePass with snapshot := some countedSnapshot, got := true }
    countedSnapshot rfl rfl rfl fun _ => trivial)
  have hstale := (hcounted.tail
    (.tryLock true { laterPass with snapshot := some countedSnapshot } countedSnapshot rfl rfl rfl)).tail
    (.update true { laterPass with snapshot := some countedSnapshot, got := true } countedSnapshot rfl rfl rfl
      fun _ => trivial)
  refine ⟨_, countedQueue_start, hstale, by decide, fun htiles => ?_⟩
  have hdisjoint := (List.pairwise_cons.mp htiles.apart).1 (minutePass.counts countedSnapshot (some 0)) List.mem_cons_self
  exact Set.disjoint_left.mp hdisjoint (show (5000000 : ℤ) ∈ _ from rfl) rfl

/-- The theorem over two passes, one after the other. -/
theorem windows_tile_twoPasses : ∃ w : MonitorWorld Bool, Run "q" CountedPass.Fresh countedQueue w ∧
    w.counted.length = 2 ∧ w.Tiles "q" := by
  have hfirst := (((Relation.ReflTransGen.refl.tail (.begin false minutePass rfl rfl rfl)).tail
    (.snapshot false minutePass rfl rfl)).tail
    (.tryLock false { minutePass with snapshot := some countedSnapshot } countedSnapshot rfl rfl rfl) :
    Run "q" CountedPass.Fresh countedQueue _)
  have hcounted := hfirst.tail (.update false { minutePass with snapshot := some countedSnapshot, got := true }
    countedSnapshot rfl rfl rfl fun _ => CountedPass.fresh_of_unmoved rfl (by decide))
  have hsecond := ((hcounted.tail (.begin true laterPass rfl rfl rfl)).tail (.snapshot true laterPass rfl rfl)).tail
    (.tryLock true { laterPass with snapshot := some (some 60000000, [countedJob]) } (some 60000000, [countedJob])
      rfl rfl rfl)
  have hboth := hsecond.tail (.update true
    { laterPass with snapshot := some (some 60000000, [countedJob]), got := true } (some 60000000, [countedJob])
    rfl rfl rfl fun _ => CountedPass.fresh_of_unmoved rfl (by decide))
  exact ⟨_, hboth, rfl, windows_tile countedQueue_start hboth⟩

end Race

end PgBoss
