import PgBoss.LocalGroups.Workers

/-!
# Local groups within their limit

Whatever happens, a group counts the slots of the batches that are not over. A slot outlives its handler unless a
`warning` listener throws, and a start keeps every group within the greatest limit as long as the
configuration is there to be read. A stop deletes it while fetches are still in flight, and what they bring is
started without a limit.
-/

namespace PgBoss

namespace FetchedBatch

variable {may : Mishap → Prop} {batch old new : FetchedBatch} {group : String}

/-- The slots of a group that the batch holds. -/
def slots (batch : FetchedBatch) (group : String) : ℕ :=
  if batch.phase = .ended then 0 else groupCount group batch.groupedJobs

/-- A batch goes on with its slots. -/
inductive Goes (old : FetchedBatch) : FetchedBatch → Prop
  | restored (hphase : old.phase = .restoring) : Goes old { old with restored := true, phase := .starting }
  | called (hphase : old.phase = .starting) : Goes old { old with phase := .racing, handler := .running }
  | handlerSettled (hhandler : old.handler = .running) (hphase : old.phase ≠ .abandoned) :
      Goes old { old with handler := .settled }
  | raceEnded (hphase : old.phase = .racing) : Goes old { old with phase := .settling }
  | overran (hphase : old.phase = .settling) : Goes old { old with phase := .overrun }
  | abandoned (hphase : old.phase = .settling ∨ old.phase = .overrun) (hhandler : old.handler = .running) :
      Goes old { old with phase := .abandoned }

/-- A batch gives its slots back. -/
inductive Ends (may : Mishap → Prop) (old : FetchedBatch) : FetchedBatch → Prop
  | restored (hphase : old.phase = .restoring) (hallowed : old.allowed = []) :
      Ends may old { old with restored := true, phase := .ended }
  | restoreFailed (hphase : old.phase = .restoring) (hmay : may .restoreFailed) : Ends may old { old with phase := .ended }
  | refused (hphase : old.phase = .starting) : Ends may old { old with failed := true, phase := .ended }
  | failFailed (hphase : old.phase = .starting) (hmay : may .failFailed) : Ends may old { old with phase := .ended }
  | finished (hphase : old.phase = .settling ∨ old.phase = .overrun) (hhandler : old.handler ≠ .running) :
      Ends may old { old with phase := .ended }
  | warningThrew (hphase : old.phase = .settling) (hmay : may .warningThrew) : Ends may old { old with phase := .ended }
  | handlerSettled (hphase : old.phase = .abandoned) : Ends may old { old with handler := .settled, phase := .ended }

/-- What every batch is. -/
structure Sound (batch : FetchedBatch) : Prop where
  counted : ∀ group, groupCount group batch.allowed = groupCount group batch.groupedJobs
  uncalled : batch.phase = .restoring ∨ batch.phase = .starting → batch.handler = .uncalled
  abandoned : batch.phase = .abandoned → batch.handler = .running

/-- A handler runs with its slots. -/
def Held (batch : FetchedBatch) : Prop := batch.handler = .running → batch.phase ≠ .ended

/-- Where a batch's jobs are by its phase. -/
structure Fated (batch : FetchedBatch) : Prop where
  parted : ∀ job ∈ batch.jobs, job ∈ batch.allowed ∨ job ∈ batch.excess
  restored : batch.phase ≠ .restoring → batch.excess = [] ∨ batch.restored = true
  called : batch.phase ≠ .restoring → batch.phase ≠ .starting →
    batch.allowed = [] ∨ batch.failed = true ∨ batch.handler ≠ .uncalled

theorem Goes.sound (h : old.Goes new) (hold : old.Sound) : new.Sound := by
  obtain ⟨hcounted, huncalled, habandoned⟩ := hold
  cases h with
  | restored hphase => exact ⟨hcounted, fun _ => huncalled (.inl hphase), nofun⟩
  | called => exact ⟨hcounted, nofun, nofun⟩
  | handlerSettled hhandler hphase =>
    refine ⟨hcounted, fun hearly => ?_, fun hlate => absurd hlate hphase⟩
    exact absurd ((huncalled hearly).symm.trans hhandler) (by decide)
  | raceEnded => exact ⟨hcounted, nofun, nofun⟩
  | overran => exact ⟨hcounted, nofun, nofun⟩
  | abandoned _ hhandler => exact ⟨hcounted, nofun, fun _ => hhandler⟩

theorem Ends.sound (h : Ends may old new) (hold : old.Sound) : new.Sound := by
  cases h <;> exact ⟨hold.counted, nofun, nofun⟩

theorem Goes.slots (h : old.Goes new) : new.slots = old.slots := by
  funext group
  cases h with
  | restored hphase => simp [FetchedBatch.slots, hphase]
  | called hphase => simp [FetchedBatch.slots, hphase]
  | handlerSettled => rfl
  | raceEnded hphase => simp [FetchedBatch.slots, hphase]
  | overran hphase => simp [FetchedBatch.slots, hphase]
  | abandoned hphase => rcases hphase with hphase | hphase <;> simp [FetchedBatch.slots, hphase]

theorem Ends.slots (h : Ends may old new) : new.slots group = 0 := by
  cases h <;> rfl

/-- A batch that ends had its slots. -/
theorem Ends.not_ended (h : Ends may old new) : old.phase ≠ .ended := by
  cases h with
  | restored hphase => simp [hphase]
  | restoreFailed hphase => simp [hphase]
  | refused hphase => simp [hphase]
  | failFailed hphase => simp [hphase]
  | finished hphase => rcases hphase with hphase | hphase <;> simp [hphase]
  | warningThrew hphase => simp [hphase]
  | handlerSettled hphase => simp [hphase]

theorem Goes.held (h : old.Goes new) : new.Held := by
  cases h with
  | handlerSettled => exact nofun
  | restored | called | raceEnded | overran | abandoned => exact fun _ => nofun

theorem Ends.held (h : Ends may old new) (hsound : old.Sound) (hmay : ¬ may .warningThrew) : new.Held := by
  cases h with
  | restored hphase => exact fun hrunning => absurd ((hsound.uncalled (.inl hphase)).symm.trans hrunning) (by decide)
  | restoreFailed hphase => exact fun hrunning => absurd ((hsound.uncalled (.inl hphase)).symm.trans hrunning) (by decide)
  | refused hphase => exact fun hrunning => absurd ((hsound.uncalled (.inr hphase)).symm.trans hrunning) (by decide)
  | failFailed hphase => exact fun hrunning => absurd ((hsound.uncalled (.inr hphase)).symm.trans hrunning) (by decide)
  | finished _ hhandler => exact fun hrunning => absurd hrunning hhandler
  | warningThrew _ hthrew => exact absurd hthrew hmay
  | handlerSettled => exact nofun

theorem Goes.fated (h : old.Goes new) (hold : old.Fated) : new.Fated := by
  obtain ⟨hparted, hrestored, hcalled⟩ := hold
  cases h with
  | restored => exact ⟨hparted, fun _ => .inr rfl, fun _ hstarting => absurd rfl hstarting⟩
  | called hphase => exact ⟨hparted, fun _ => hrestored (by simp [hphase]), fun _ _ => .inr (.inr nofun)⟩
  | handlerSettled => exact ⟨hparted, hrestored, fun _ _ => .inr (.inr nofun)⟩
  | raceEnded hphase =>
    exact ⟨hparted, fun _ => hrestored (by simp [hphase]), fun _ _ => hcalled (by simp [hphase]) (by simp [hphase])⟩
  | overran hphase =>
    exact ⟨hparted, fun _ => hrestored (by simp [hphase]), fun _ _ => hcalled (by simp [hphase]) (by simp [hphase])⟩
  | abandoned hphase hhandler =>
    refine ⟨hparted, fun _ => hrestored ?_, fun _ _ => .inr (.inr (by simp [hhandler]))⟩
    rcases hphase with hphase | hphase <;> simp [hphase]

theorem Ends.fated (h : Ends may old new) (hold : old.Fated) (hrestore : ¬ may .restoreFailed) (hfail : ¬ may .failFailed) :
    new.Fated := by
  obtain ⟨hparted, hrestored, hcalled⟩ := hold
  cases h with
  | restored _ hallowed => exact ⟨hparted, fun _ => .inr rfl, fun _ _ => .inl hallowed⟩
  | restoreFailed _ hmay => exact absurd hmay hrestore
  | refused hphase => exact ⟨hparted, fun _ => hrestored (by simp [hphase]), fun _ _ => .inr (.inl rfl)⟩
  | failFailed _ hmay => exact absurd hmay hfail
  | finished hphase =>
    have hlate : old.phase ≠ .restoring ∧ old.phase ≠ .starting := by rcases hphase with hphase | hphase <;> simp [hphase]
    exact ⟨hparted, fun _ => hrestored hlate.1, fun _ _ => hcalled hlate.1 hlate.2⟩
  | warningThrew hphase =>
    exact ⟨hparted, fun _ => hrestored (by simp [hphase]), fun _ _ => hcalled (by simp [hphase]) (by simp [hphase])⟩
  | handlerSettled hphase => exact ⟨hparted, fun _ => hrestored (by simp [hphase]), fun _ _ => .inr (.inr nofun)⟩

/-- A batch that is no longer under way has handed every job to its handler or given it back. -/
theorem Fated.handed_or_givenBack (h : batch.Fated) (hover : ¬ batch.underWay) {job : Job} (hjob : job ∈ batch.jobs) :
    batch.Handed job ∨ batch.GivenBack job := by
  have hphase : batch.phase = .abandoned ∨ batch.phase = .ended := by
    by_contra hneither
    exact hover (not_or.mp hneither)
  have hlate : batch.phase ≠ .restoring ∧ batch.phase ≠ .starting := by rcases hphase with hphase | hphase <;> simp [hphase]
  rcases h.parted job hjob with hallowed | hexcess
  · rcases h.called hlate.1 hlate.2 with hnone | hfailed | hhandler
    · simp [hnone] at hallowed
    · exact .inr (.inr ⟨hallowed, hfailed⟩)
    · exact .inl ⟨hallowed, hhandler⟩
  · rcases h.restored hlate.1 with hnone | hrestored
    · simp [hnone] at hexcess
    · exact .inr (.inl ⟨hexcess, hrestored⟩)

end FetchedBatch

namespace QueueWorkers

open FetchedBatch

variable {config : GroupConcurrency} {may : Mishap → Prop} {w w' : QueueWorkers}

/-- What a step does to the batches, the counts and the configuration. -/
inductive Effect (config : GroupConcurrency) (may : Mishap → Prop) (w w' : QueueWorkers) : Prop
  | quiet (hbatches : w'.batches = w.batches) (hfetched : w'.fetched = w.fetched) (hactive : w'.active = w.active)
      (hconfig : w'.config = w.config ∨ w'.config = none ∨ w'.config = some config)
  | began (k : ℕ) (jobs : List Job) (hmay : w.config = none → may .unconfigured)
      (hw' : w' = w.onFetch k jobs)
  | dropped (k : ℕ) (jobs : List Job) (hmay : may .wipThrew) (hw' : w' = w.wipThrew k jobs)
  | went (b : ℕ) (new : FetchedBatch) (hgoes : (w.batches b).Goes new)
      (hbatches : w'.batches = Function.update w.batches b new) (hfetched : w'.fetched = w.fetched)
      (hactive : w'.active = w.active) (hconfig : w'.config = w.config)
  | ended (b : ℕ) (new : FetchedBatch) (hends : (w.batches b).Ends may new)
      (hbatches : w'.batches = Function.update w.batches b new) (hfetched : w'.fetched = w.fetched)
      (hactive : w'.active = trackLocalGroupEnd w.active (w.batches b).groupedJobs) (hconfig : w'.config = w.config)

theorem step_effect (hstep : Step config may w w') : Effect config may w w' := by
  cases hstep with
  | work => exact .quiet rfl rfl rfl (.inr (.inr rfl))
  | fetch | fetchedNone | exited | failWip | start => exact .quiet rfl rfl rfl (.inl rfl)
  | onFetch k ignoreGroups jobs _ _ _ hmay => exact .began k jobs hmay rfl
  | wipThrew k ignoreGroups jobs _ _ hmay => exact .dropped k jobs hmay rfl
  | restored b hphase =>
    unfold QueueWorkers.restored
    dsimp only
    split
    next hallowed => exact .ended b _ (.restored hphase (List.isEmpty_iff.mp hallowed)) rfl rfl rfl rfl
    next => exact .went b _ (.restored hphase) rfl rfl rfl rfl
  | restoreFailed b hphase hmay => exact .ended b _ (.restoreFailed hphase hmay) rfl rfl rfl rfl
  | handlerCalled b hphase => exact .went b _ (.called hphase) rfl rfl rfl rfl
  | refused b hphase => exact .ended b _ (.refused hphase) rfl rfl rfl rfl
  | failFailed b hphase hmay => exact .ended b _ (.failFailed hphase hmay) rfl rfl rfl rfl
  | handlerSettled b hhandler =>
    unfold QueueWorkers.handlerSettled
    dsimp only
    split
    next hphase => exact .ended b _ (.handlerSettled hphase) rfl rfl rfl rfl
    next hphase => exact .went b _ (.handlerSettled hhandler hphase) rfl rfl rfl rfl
  | raceEnded b hphase => exact .went b _ (.raceEnded hphase) rfl rfl rfl rfl
  | settled b hphase =>
    unfold QueueWorkers.settled
    dsimp only
    split
    next hhandler => exact .ended b _ (.finished (.inl hphase) hhandler) rfl rfl rfl rfl
    next hhandler =>
      split
      next => exact .went b _ (.abandoned (.inl hphase) (not_not.mp hhandler)) rfl rfl rfl rfl
      next => exact .went b _ (.overran hphase) rfl rfl rfl rfl
  | warningThrew b hphase _ _ hmay => exact .ended b _ (.warningThrew hphase hmay) rfl rfl rfl rfl
  | waitEnded b hphase =>
    unfold QueueWorkers.waitEnded
    dsimp only
    split
    next hhandler => exact .went b _ (.abandoned (.inr hphase) hhandler) rfl rfl rfl rfl
    next hhandler => exact .ended b _ (.finished (.inr hphase) hhandler) rfl rfl rfl rfl
  | offWork id =>
    unfold QueueWorkers.offWork
    split
    next => exact .quiet rfl rfl rfl (.inl rfl)
    next => exact .quiet rfl rfl rfl (.inl rfl)
  | cleanedUp cleanup =>
    refine .quiet rfl rfl rfl ?_
    unfold QueueWorkers.cleanedUp
    dsimp only
    split
    next => exact .inl rfl
    next => exact .inr (.inl rfl)
  | stop =>
    unfold QueueWorkers.stop QueueWorkers.offWork
    split
    next => exact .quiet rfl rfl rfl (.inl rfl)
    next => exact .quiet rfl rfl rfl (.inl rfl)
  | cleared => exact .quiet rfl rfl rfl (.inr (.inl rfl))

section Batches

variable {P : FetchedBatch → Prop} {b : ℕ} {new : FetchedBatch}

theorem forall_update (hold : ∀ b, P (w.batches b)) (hnew : P new) (b' : ℕ) : P (Function.update w.batches b new b') := by
  by_cases hb : b' = b
  · subst hb
    simpa using hnew
  · simpa [hb] using hold b'

/-- What holds of no batch, of every fetched batch at its start, and whatever a batch does, holds of every batch. -/
theorem step_forall (hold : ∀ b, P (w.batches b)) (hstep : Step config may w w')
    (hbegan : ∀ k jobs, P ((w.onFetch k jobs).batches w.fetched))
    (hdropped : may .wipThrew → ∀ k jobs, P { worker := k, jobs := jobs })
    (hgoes : ∀ b new, (w.batches b).Goes new → P (w.batches b) → P new)
    (hends : ∀ b new, (w.batches b).Ends may new → P (w.batches b) → P new) : ∀ b, P (w'.batches b) := by
  cases step_effect hstep with
  | quiet hbatches => rwa [hbatches]
  | began k jobs _ hw' =>
    subst hw'
    have hnew := hbegan k jobs
    simp only [onFetch, Function.update_self] at hnew
    exact forall_update hold hnew
  | dropped k jobs hmay hw' =>
    subst hw'
    exact forall_update hold (hdropped hmay k jobs)
  | went b new hnew hbatches =>
    rw [hbatches]
    exact forall_update hold (hgoes b new hnew (hold b))
  | ended b new hnew hbatches =>
    rw [hbatches]
    exact forall_update hold (hends b new hnew (hold b))

theorem onFetch_sound (k : ℕ) (jobs : List Job) : ((w.onFetch k jobs).batches w.fetched).Sound := by
  simp only [onFetch, Function.update_self]
  refine ⟨fun group => groupCount_allowed group, fun _ => rfl, ?_⟩
  dsimp only
  split <;> exact nofun

theorem onFetch_held (k : ℕ) (jobs : List Job) : ((w.onFetch k jobs).batches w.fetched).Held := by
  simp only [onFetch, Function.update_self]
  exact nofun

theorem onFetch_fated (k : ℕ) (jobs : List Job) : ((w.onFetch k jobs).batches w.fetched).Fated := by
  simp only [onFetch, Function.update_self]
  constructor
  · exact fun job hjob => mem_trackLocalGroupStart hjob
  · dsimp only
    split
    next hexcess => exact fun _ => .inl (List.isEmpty_iff.mp hexcess)
    next => exact fun hrestoring => absurd rfl hrestoring
  · dsimp only
    split
    next => exact fun _ hstarting => absurd rfl hstarting
    next => exact fun hrestoring => absurd rfl hrestoring

end Batches

/-- The counts are the slots of the batches. -/
structure Accounted (w : QueueWorkers) : Prop where
  fresh : ∀ b, w.fetched ≤ b → w.batches b = {}
  sound : ∀ b, (w.batches b).Sound
  balanced : Permits.Balanced w.fetched (fun b => (w.batches b).slots) w.active

/-- A batch that has begun is one of the fetched. -/
theorem Accounted.lt_fetched (h : w.Accounted) {b : ℕ} (hb : w.batches b ≠ {}) : b < w.fetched :=
  lt_of_not_ge fun hle => hb (h.fresh b hle)

theorem step_accounted (h : w.Accounted) (hstep : Step config may w w') : w'.Accounted := by
  have hsound : ∀ b, (w'.batches b).Sound := by
    refine step_forall h.sound hstep onFetch_sound ?_ (fun b new hgoes => hgoes.sound) (fun b new hends => hends.sound)
    exact fun _ k jobs => ⟨fun _ => rfl, nofun, nofun⟩
  cases step_effect hstep with
  | quiet hbatches hfetched hactive =>
    refine ⟨?_, hsound, ?_⟩
    · rw [hbatches, hfetched]
      exact h.fresh
    · rw [hbatches, hfetched, hactive]
      exact h.balanced
  | began k jobs hmay hw' =>
    subst hw'
    refine ⟨?_, hsound, ?_⟩
    · intro b hle
      have hne : b ≠ w.fetched := by rintro rfl; exact absurd hle (Nat.not_succ_le_self _)
      exact (Function.update_of_ne hne _ _).trans (h.fresh b (Nat.le_of_succ_le hle))
    · refine h.balanced.take (fun b hb => ?_) (fun group => ?_)
      · simp only [onFetch, Function.update_of_ne hb.ne]
      · have hslots : ((w.onFetch k jobs).batches w.fetched).slots group =
            groupCount group (trackLocalGroupStart w.config w.active jobs).groupedJobs := by
          simp only [onFetch, Function.update_self, slots]
          split <;> simp
        rw [hslots]
        exact trackLocalGroupStart_active group
  | dropped k jobs _ hw' =>
    subst hw'
    refine ⟨?_, hsound, ?_⟩
    · intro b hle
      have hne : b ≠ w.fetched := by rintro rfl; exact absurd hle (Nat.not_succ_le_self _)
      exact (Function.update_of_ne hne _ _).trans (h.fresh b (Nat.le_of_succ_le hle))
    · refine h.balanced.take (fun b hb => ?_) (fun group => ?_)
      · simp only [wipThrew, Function.update_of_ne hb.ne]
      · simp [wipThrew, slots]
        rfl
  | went b new hgoes hbatches hfetched hactive =>
    have hb : b < w.fetched := h.lt_fetched fun hempty => by
      rw [hempty] at hgoes
      cases hgoes <;> simp_all
    refine ⟨?_, hsound, ?_⟩
    · intro b' hle
      rw [hfetched] at hle
      rw [hbatches, Function.update_of_ne (hb.trans_le hle).ne']
      exact h.fresh b' hle
    · rw [hfetched, hactive]
      refine h.balanced.of_eq (fun b' _ => ?_) fun _ => rfl
      rw [hbatches]
      by_cases hb' : b' = b
      · subst hb'
        simpa using hgoes.slots
      · simp [hb']
  | ended b new hends hbatches hfetched hactive =>
    have hb : b < w.fetched := h.lt_fetched fun hempty => hends.not_ended (by rw [hempty])
    refine ⟨?_, hsound, ?_⟩
    · intro b' hle
      rw [hfetched] at hle
      rw [hbatches, Function.update_of_ne (hb.trans_le hle).ne']
      exact h.fresh b' hle
    · rw [hfetched, hactive]
      refine h.balanced.release hb (fun b' hb' => ?_) (fun group => ?_) (fun group => ?_)
      · simp [hbatches, hb']
      · simpa [hbatches] using hends.slots
      · simp only [trackLocalGroupEnd_apply, slots, if_neg hends.not_ended]

/-- Nothing is counted of a group no batch is at and no handler runs. -/
theorem Accounted.eq_zero (h : w.Accounted) {group : String}
    (hnone : ∀ b, groupCount group (w.batches b).allowed ≠ 0 → ¬ (w.batches b).underWay ∧ (w.batches b).handler ≠ .running) :
    w.active group = 0 := by
  refine h.balanced.eq_zero fun b _ => ?_
  rw [slots]
  split
  next => rfl
  next hover =>
    rw [← (h.sound b).counted]
    by_contra hjobs
    obtain ⟨hunder, hhandler⟩ := hnone b hjobs
    exact hunder ⟨fun habandoned => hhandler ((h.sound b).abandoned habandoned), hover⟩

/-- Every running handler has its slots. -/
theorem Accounted.running_le (h : w.Accounted) (hheld : ∀ b, (w.batches b).Held) (group : String) :
    w.running group ≤ w.active group := by
  refine h.balanced.sum_le (fun b => (w.batches b).running) fun b _ => ?_
  simp only [FetchedBatch.running, slots]
  split
  next hrunning => rw [if_neg (hheld b hrunning), (h.sound b).counted]
  next => exact Nat.zero_le _

/-- The configuration is the queue's where there is one, and no group is over the greatest limit. -/
structure Limited (config : GroupConcurrency) (w : QueueWorkers) : Prop where
  configured : w.config = none ∨ w.config = some config
  limited : ∀ group, (w.active group : Int) ≤ config.maxLimit

theorem step_configured (h : w.config = none ∨ w.config = some config) (hstep : Step config may w w') :
    w'.config = none ∨ w'.config = some config := by
  cases step_effect hstep with
  | quiet _ _ _ hconfig =>
    rcases hconfig with hsame | hnone | hsome
    · rwa [hsame]
    · exact .inl hnone
    · exact .inr hsome
  | began k jobs _ hw' => exact hw' ▸ h
  | dropped k jobs _ hw' => exact hw' ▸ h
  | went b new _ _ _ _ hconfig => rwa [hconfig]
  | ended b new _ _ _ _ hconfig => rwa [hconfig]

theorem step_limited (h : Limited config w) (hmay : ¬ may .unconfigured) (hstep : Step config may w w') :
    Limited config w' := by
  refine ⟨step_configured h.configured hstep, fun group => ?_⟩
  cases step_effect hstep with
  | quiet _ _ hactive => exact hactive ▸ h.limited group
  | began k jobs hlanded hw' =>
    subst hw'
    have hconfig : w.config = some config := h.configured.resolve_left fun hnone => hmay (hlanded hnone)
    have hstart : ((trackLocalGroupStart (some config) w.active jobs).active group : Int) ≤ config.maxLimit :=
      trackLocalGroupStart_le (h.limited group)
    rwa [← hconfig] at hstart
  | dropped k jobs _ hw' => exact hw' ▸ h.limited group
  | went b new _ _ _ hactive => exact hactive ▸ h.limited group
  | ended b new _ _ _ hactive =>
    rw [hactive, trackLocalGroupEnd_apply]
    have hle := h.limited group
    omega

theorem new_fated : ({} : FetchedBatch).Fated :=
  ⟨fun _ hjob => absurd hjob List.not_mem_nil, fun _ => .inl rfl, fun _ _ => .inl rfl⟩

theorem new_accounted : ({} : QueueWorkers).Accounted where
  fresh _ _ := rfl
  sound _ := ⟨fun _ => rfl, nofun, nofun⟩
  balanced := Permits.Balanced.zero

section Runs

variable (hrun : Run config may {} w)

include hrun

theorem run_accounted : w.Accounted := by
  induction hrun with
  | refl => exact new_accounted
  | tail _ hstep ih => exact step_accounted ih hstep

theorem run_configured : w.config = none ∨ w.config = some config := by
  induction hrun with
  | refl => exact .inl rfl
  | tail _ hstep ih => exact step_configured ih hstep

theorem run_held (hmay : ¬ may .warningThrew) : ∀ b, (w.batches b).Held := by
  induction hrun with
  | refl => exact fun _ => nofun
  | tail hrun hstep ih =>
    refine step_forall ih hstep onFetch_held (fun _ k jobs => nofun) (fun b new hgoes _ => hgoes.held) ?_
    exact fun b new hends _ => hends.held ((run_accounted hrun).sound b) hmay

theorem run_fated (hrestore : ¬ may .restoreFailed) (hfail : ¬ may .failFailed) (hwip : ¬ may .wipThrew) :
    ∀ b, (w.batches b).Fated := by
  induction hrun with
  | refl => exact fun _ => new_fated
  | tail hrun hstep ih =>
    refine step_forall ih hstep onFetch_fated (fun hmay => absurd hmay hwip) (fun b new hgoes => hgoes.fated) ?_
    exact fun b new hends hold => hends.fated hold hrestore hfail

theorem run_limited (hdefault : 1 ≤ config.default) (hmay : ¬ may .unconfigured) : Limited config w := by
  induction hrun with
  | refl =>
    refine ⟨.inl rfl, fun group => ?_⟩
    have hmax : config.default ≤ config.maxLimit := @le_maxLimit config none config.default rfl
    change (0 : Int) ≤ config.maxLimit
    omega
  | tail _ hstep ih => exact step_limited ih hmay hstep

end Runs

end QueueWorkers

open QueueWorkers

/-- In every run of a queue's workers: while no fetch lands without the configuration and no `warning` listener
throws, the handlers running a group are within its greatest limit, and those running it when a job takes its slot,
with the jobs before it in its batch and itself, are within the job's own limit; a group is counted zero once no batch
is at it and no handler runs it; and while no restore and no fail of an uncalled batch rejects and no `wip` listener
throws, every job of a batch that is over was handed to its handler or given back. -/
theorem local_groups_bounded (config : GroupConcurrency) (hdefault : 1 ≤ config.default) (may : Mishap → Prop)
    (w : QueueWorkers) (hrun : Run config may {} w) :
    (¬ may .unconfigured → ¬ may .warningThrew →
      (∀ group, (w.running group : Int) ≤ config.maxLimit) ∧
      ∀ jobs pre job post group limit, w.config ≠ none → job.group = some group →
        (trackLocalGroupStart w.config w.active jobs).groupedJobs = pre ++ job :: post →
        getLocalGroupLimit (some config) job.groupTier = .finite limit →
        (w.running group : Int) + groupCount group pre + 1 ≤ limit) ∧
    (∀ group, (∀ b, groupCount group (w.batches b).allowed ≠ 0 →
      ¬ (w.batches b).underWay ∧ (w.batches b).handler ≠ .running) → w.active group = 0) ∧
    (¬ may .restoreFailed → ¬ may .failFailed → ¬ may .wipThrew →
      ∀ b, ¬ (w.batches b).underWay → ∀ job ∈ (w.batches b).jobs,
        (w.batches b).Handed job ∨ (w.batches b).GivenBack job) := by
  have haccounted := run_accounted hrun
  refine ⟨?_, ?_, ?_⟩
  · intro hlanded hthrew
    have hheld := run_held hrun hthrew
    constructor
    · intro group
      have hrunning := haccounted.running_le hheld group
      have hlimited := (run_limited hrun hdefault hlanded).limited group
      omega
    · intro jobs pre job post group limit hconfig hgroup hsplit hlimit
      have hrunning := haccounted.running_le hheld group
      have habove := limit_above_of_split hgroup hsplit
      rw [(run_configured hrun).resolve_left hconfig, hlimit] at habove
      simp only [LocalGroupLimit.above, decide_eq_true_eq] at habove
      omega
  · exact fun group => haccounted.eq_zero
  · intro hrestore hfail hwip b hover job hjob
    exact (run_fated hrun hrestore hfail hwip b).handed_or_givenBack hover hjob

/-- A job of the group `a`. -/
def localJob (id : Uuid) : Job :=
  { id := id, name := "q", groupId := some "a", startAfter := 0, createdOn := 0, keepUntil := 0 }

/-- Two workers fetch a job of one group each: one handler runs, and the other job is being restored. -/
theorem local_groups_bounded_two :
    ∃ w : QueueWorkers, (w.batches 1).phase = .restoring ∧ (w.batches 0).handler = .running ∧ w.running "a" ≤ 1 := by
  have hrun : ∃ w, Run ⟨1, none⟩ (fun _ => False) {} w ∧ (w.batches 1).phase = .restoring ∧
      (w.batches 0).handler = .running :=
    ⟨_, Relation.ReflTransGen.refl
      |>.tail (.work 2 rfl) |>.tail (.onFetch 0 _ [localJob 1] rfl (by simp) (fun _ _ _ _ => rfl) nofun)
      |>.tail (.handlerCalled 0 rfl rfl)
      |>.tail (.onFetch 1 _ [localJob 2] rfl (by simp) (fun _ _ _ _ => rfl) nofun), rfl, rfl⟩
  obtain ⟨w, hrun, hrestoring, hrunning⟩ := hrun
  have hle := ((local_groups_bounded ⟨1, none⟩ le_rfl _ w hrun).1 id id).1 "a"
  have hmax : (GroupConcurrency.mk 1 none).maxLimit = 1 := rfl
  exact ⟨w, hrestoring, hrunning, by omega⟩

/-- A limit of one. Two workers are fetching when `stop()` deletes the configuration, and both jobs that land are
run; and a worker's two jobs are left active when the restore of the second is refused. -/
theorem local_groups_unbounded :
    (∃ w, Run ⟨1, none⟩ (fun mishap => mishap = .unconfigured) {} w ∧
      (GroupConcurrency.mk 1 none).maxLimit < w.running "a") ∧
    ∃ w b job, Run ⟨1, none⟩ (fun mishap => mishap = .restoreFailed) {} w ∧ (w.batches b).phase = .ended ∧
      job ∈ (w.batches b).jobs ∧ ¬ (w.batches b).Handed job ∧ ¬ (w.batches b).GivenBack job := by
  constructor
  · refine ⟨_, Relation.ReflTransGen.refl
      |>.tail (.work 2 rfl) |>.tail .stop |>.tail (.cleared rfl)
      |>.tail (.onFetch 0 _ [localJob 1] rfl (by simp) (fun _ _ _ _ => rfl) fun _ => rfl)
      |>.tail (.onFetch 1 _ [localJob 2] rfl (by simp) (fun _ _ _ _ => rfl) fun _ => rfl)
      |>.tail (.handlerCalled 0 rfl rfl) |>.tail (.handlerCalled 1 rfl rfl), ?_⟩
    decide
  · refine ⟨_, 0, localJob 1, Relation.ReflTransGen.refl
      |>.tail (.work 1 rfl)
      |>.tail (.onFetch 0 _ [localJob 1, localJob 2] rfl (by simp) (fun _ _ _ _ => rfl) nofun)
      |>.tail (.restoreFailed 0 rfl rfl), rfl, List.mem_cons_self, ?_, ?_⟩
    · exact fun hhanded => hhanded.2 rfl
    · rintro (⟨-, hrestored⟩ | ⟨-, hfailed⟩)
      · cases hrestored
      · cases hfailed

end PgBoss
