import PgBoss.Timekeeper.ClaimTimer

/-!
# Cron passes keep inside the due window

Any number of instances share one stamp. A winner is due an interval after the stamp it set, a
loser a beat after the row it lost to comes due; the stamp only grows, so neither is ever due later
than a beat past the interval after it. Whoever is left when others stop is due by then as well.
-/

namespace PgBoss

variable {interval now now' : ℚ} {cronOn cronOn' : Option ℚ}

section Attempts

variable {k : Timekeeper} {t : ClaimTimer}

/-- What an attempt does: it wins, at least an interval after the stamp before, and is due an interval
later, or it loses to a younger stamp and is due a beat after that one comes due. -/
theorem Timekeeper.onCron_cases (hinterval : 1 ≤ interval ∧ interval ≤ 45) (hrunning : k.stopped = false)
    (htimer : k.cronMonitorTimer = some t) (hlive : t.stopped = false) (hms : t.ms = interval * 1000)
    (hclock : ∀ c, cronOn = some c → c ≤ now) :
    ((∀ c, cronOn = some c → c + interval * 1000 ≤ now) ∧ k.onCron interval now cronOn = (some now, { k with
        cronMonitorTimer := some { t with due := some (now + interval * 1000), anchored := true }
        attempted := true }, true)) ∨
      ∃ c, cronOn = some c ∧ now < c + interval * 1000 ∧ k.onCron interval now cronOn = (cronOn, { k with
        cronMonitorTimer := some { t with due := some (c + interval * 1000 + beat interval), anchored := true }
        attempted := true }, false) := by
  have hanchor (ms : Option ℚ) : t.anchor now ms =
      { t with due := some (now + ms.getD t.ms), anchored := true } := by
    simp [ClaimTimer.anchor, ClaimTimer.arm, ClaimTimer.disarm, hlive]
  by_cases hdue : interval ≤ (now - cronOn.getD (now - oneWeek)) / 1000
  · refine .inl ⟨fun c hc => ?_, ?_⟩
    · rw [hc, Option.getD_some, le_div_iff₀ (by norm_num)] at hdue
      linarith
    · simp [onCron, hrunning, trySetCronTime, trySetTimestamp, hdue, htimer, hanchor, hms]
  · cases cronOn with
    | none =>
      rw [Option.getD_none, oneWeek] at hdue
      exact absurd (by linarith) hdue
    | some c =>
      have hage := hclock c rfl
      rw [Option.getD_some, le_div_iff₀ (by norm_num), not_le] at hdue
      have hwait : now + claimRetryDelay interval (some ((now - c) / 1000)) = c + interval * 1000 + beat interval := by
        rw [claimRetryDelay]
        by_cases hpos : 0 < (now - c) / 1000
        · simp only [if_pos hpos]
          rw [max_eq_right (by linarith)]
          linarith
        · have hsame : now = c := by linarith
          simp only [if_neg hpos]
          linarith
      refine .inr ⟨c, rfl, by linarith, ?_⟩
      have hlost : ¬ interval ≤ (now - c) / 1000 := by rw [le_div_iff₀ (by norm_num)]; linarith
      simp [onCron, hrunning, trySetCronTime, trySetTimestamp, hlost, htimer, hanchor, hwait]

/-- A running instance has an armed timer that is not overdue, and once it has tried a claim the
timer is due within a beat of when the stamp comes due. -/
def Timekeeper.InTime (interval now : ℚ) (cronOn : Option ℚ) (k : Timekeeper) : Prop :=
  k.stopped = false → ∃ t due, k.cronMonitorTimer = some t ∧ t.stopped = false ∧ t.ms = interval * 1000 ∧
    t.due = some due ∧ now ≤ due ∧
    (k.attempted = true → ∃ c, cronOn = some c ∧ due ≤ c + interval * 1000 + beat interval)

/-- A later stamp leaves an instance in time. -/
theorem Timekeeper.InTime.later (h : k.InTime interval now cronOn)
    (hlater : ∀ c, cronOn = some c → ∃ c', cronOn' = some c' ∧ c ≤ c') : k.InTime interval now cronOn' := by
  intro hrunning
  obtain ⟨t, due, htimer, hlive, hms, hdue, hnow, hin⟩ := h hrunning
  refine ⟨t, due, htimer, hlive, hms, hdue, hnow, fun hattempted => ?_⟩
  obtain ⟨c, hc, hle⟩ := hin hattempted
  obtain ⟨c', hc', hcc⟩ := hlater c hc
  exact ⟨c', hc', by linarith⟩

theorem Timekeeper.start_inTime (hinterval : 1 ≤ interval) (h : k.InTime interval now cronOn) :
    (k.start interval now).InTime interval now cronOn := by
  cases hrunning : k.stopped with
  | false => simpa [start, hrunning] using h
  | true =>
    intro _
    simp only [start, hrunning, Bool.not_true, Bool.false_eq_true, if_false]
    exact ⟨_, now + interval * 1000, rfl, rfl, rfl, rfl, by linarith, nofun⟩

theorem Timekeeper.stop_inTime (h : k.InTime interval now cronOn) : k.stop.InTime interval now cronOn := by
  cases hrunning : k.stopped with
  | false => exact fun hstopped => by simp [stop, hrunning] at hstopped
  | true => simpa [stop, hrunning] using h

/-- How an attempt, by either way into it, leaves the stamp and the instance that made it. -/
structure Attempted (interval now : ℚ) (cronOn : Option ℚ) (out : Option ℚ × Timekeeper × Bool) : Prop where
  inTime : out.2.1.InTime interval now out.1
  won : out.2.2 = true → out.1 = some now ∧ ∀ c, cronOn = some c → c + interval * 1000 ≤ now
  lost : out.2.2 = false → out.1 = cronOn

theorem beat_nonneg (hinterval : 1 ≤ interval) : 0 ≤ Timekeeper.beat interval :=
  le_min (by norm_num) (by linarith)

/-- An attempt of an instance with a live timer. -/
theorem Timekeeper.onCron_attempted (hinterval : 1 ≤ interval ∧ interval ≤ 45)
    (htimer : k.stopped = false → ∃ t, k.cronMonitorTimer = some t ∧ t.stopped = false ∧ t.ms = interval * 1000)
    (hclock : ∀ c, cronOn = some c → c ≤ now) : Attempted interval now cronOn (k.onCron interval now cronOn) := by
  have hbeat := beat_nonneg hinterval.1
  cases hrunning : k.stopped with
  | true =>
    have hout : k.onCron interval now cronOn = (cronOn, k, false) := by simp [onCron, hrunning]
    rw [hout]
    exact ⟨fun h => by simp [hrunning] at h, nofun, fun _ => rfl⟩
  | false =>
    obtain ⟨t, htimer, hlive, hms⟩ := htimer hrunning
    rcases onCron_cases hinterval hrunning htimer hlive hms hclock with ⟨hold, hout⟩ | ⟨c, hc, hyoung, hout⟩
    · rw [hout]
      exact ⟨fun _ => ⟨_, _, rfl, hlive, hms, rfl, by linarith, fun _ => ⟨now, rfl, by linarith⟩⟩,
        fun _ => ⟨rfl, hold⟩, nofun⟩
    · rw [hout]
      exact ⟨fun _ => ⟨_, _, rfl, hlive, hms, rfl, by linarith, fun _ => ⟨c, hc, le_rfl⟩⟩, nofun, fun _ => rfl⟩

/-- The timer's callback leaves what the attempt in it does, which anchored the timer. -/
theorem Timekeeper.onTimer_attempted (hinterval : 1 ≤ interval ∧ interval ≤ 45)
    (hlive : k.stopped = false → t.stopped = false ∧ t.ms = interval * 1000)
    (hclock : ∀ c, cronOn = some c → c ≤ now) :
    Attempted interval now cronOn (k.onTimer interval now cronOn t) := by
  cases hrunning : k.stopped with
  | true =>
    simp only [onTimer, onCron, hrunning, if_true]
    exact ⟨fun h => by simp at h, nofun, fun _ => rfl⟩
  | false =>
    obtain ⟨hlive, hms⟩ := hlive hrunning
    have hsame : k.onTimer interval now cronOn t =
        onCron interval now cronOn { k with cronMonitorTimer := some t.fired } := by
      rcases onCron_cases (k := { k with cronMonitorTimer := some t.fired }) hinterval hrunning rfl hlive hms hclock with
        ⟨-, hout⟩ | ⟨c, -, -, hout⟩ <;>
      simp [onTimer, hout, ClaimTimer.settled]
    rw [hsame]
    exact onCron_attempted hinterval (fun _ => ⟨_, rfl, hlive, hms⟩) hclock

end Attempts

variable {ι : Type*} [DecidableEq ι]

/-- The deployment: the clock, `cron_on`, the instances, and the stamps of the claims won so far, the
last one first. -/
structure TimerWorld (ι : Type*) where
  now : ℚ
  cronOn : Option ℚ
  instances : ι → Timekeeper
  passes : List ℚ

namespace TimerWorld

variable {w w' w₀ : TimerWorld ι} {i : ι}

/-- What an attempt of an instance leaves. -/
def attempted (w : TimerWorld ι) (i : ι) (out : Option ℚ × Timekeeper × Bool) : TimerWorld ι where
  now := w.now
  cronOn := out.1
  instances := Function.update w.instances i out.2.1
  passes := if out.2.2 then w.now :: w.passes else w.passes

/-- Time passes, but not past a timer that is due; an instance starts or stops; the attempt `start()`
left to `setImmediate` runs; a due timer runs its attempt. -/
inductive Step (interval : ℚ) : TimerWorld ι → TimerWorld ι → Prop
  | elapse {w : TimerWorld ι} (d : ℚ) (hd : 0 ≤ d)
      (hdue : ∀ i t due, (w.instances i).cronMonitorTimer = some t → t.due = some due → w.now + d ≤ due) :
      Step interval w { w with now := w.now + d }
  | start {w : TimerWorld ι} (i : ι) :
      Step interval w { w with instances := Function.update w.instances i ((w.instances i).start interval w.now) }
  | stop {w : TimerWorld ι} (i : ι) :
      Step interval w { w with instances := Function.update w.instances i (w.instances i).stop }
  | immediate {w : TimerWorld ι} (i : ι) (hpending : 0 < (w.instances i).immediates) :
      Step interval w (w.attempted i (Timekeeper.onCron interval w.now w.cronOn
        { w.instances i with immediates := (w.instances i).immediates - 1 }))
  | fire {w : TimerWorld ι} (i : ι) (t : ClaimTimer) (due : ℚ) (htimer : (w.instances i).cronMonitorTimer = some t)
      (harmed : t.due = some due) (hdue : due ≤ w.now) :
      Step interval w (w.attempted i ((w.instances i).onTimer interval w.now w.cronOn t))

/-- A run of steps. -/
def Run (interval : ℚ) : TimerWorld ι → TimerWorld ι → Prop := Relation.ReflTransGen (Step interval)

/-- No instance has started; `cron_on` is null or what an earlier deployment left. -/
structure Start (w : TimerWorld ι) : Prop where
  stopped : ∀ i, w.instances i = {}
  stamp : ∀ c, w.cronOn = some c → c ≤ w.now
  passes : w.passes = w.cronOn.toList

/-- What every reachable state keeps. -/
structure InTime (interval : ℚ) (w : TimerWorld ι) : Prop where
  stamp : ∀ c, w.cronOn = some c → c ≤ w.now
  last : w.passes.head? = w.cronOn
  spaced : w.passes.Pairwise fun later earlier => earlier + interval * 1000 ≤ later
  instances : ∀ i, (w.instances i).InTime interval w.now w.cronOn

omit [DecidableEq ι] in
theorem Start.inTime (h : w.Start) : w.InTime interval where
  stamp := h.stamp
  last := by rw [h.passes]; cases w.cronOn <;> rfl
  spaced := by rw [h.passes]; cases w.cronOn <;> simp
  instances i := fun hrunning => by simp [h.stopped i] at hrunning

theorem InTime.update (h : w.InTime interval) {k : Timekeeper} (hk : k.InTime interval w.now w.cronOn) :
    InTime interval { w with instances := Function.update w.instances i k } where
  stamp := h.stamp
  last := h.last
  spaced := h.spaced
  instances j := by
    by_cases hj : j = i
    · subst hj
      simpa using hk
    · simpa [Function.update_of_ne hj] using h.instances j

/-- An attempt keeps everyone in time: it wins a stamp later than the one before, or changes none. -/
theorem InTime.attempted (hinterval : 1 ≤ interval) (h : w.InTime interval) {out : Option ℚ × Timekeeper × Bool}
    (hout : Attempted interval w.now w.cronOn out) : (w.attempted i out).InTime interval := by
  have hstamp : ∀ c, out.1 = some c → c ≤ w.now := by
    intro c hc
    cases hwon : out.2.2 with
    | true => exact (Option.some.inj (hc.symm.trans (hout.won hwon).1)).le
    | false => exact h.stamp c ((hout.lost hwon).symm.trans hc)
  have hlater : ∀ c, w.cronOn = some c → ∃ c', out.1 = some c' ∧ c ≤ c' := by
    intro c hc
    cases hwon : out.2.2 with
    | true => exact ⟨w.now, (hout.won hwon).1, h.stamp c hc⟩
    | false => exact ⟨c, (hout.lost hwon).trans hc, le_rfl⟩
  refine ⟨hstamp, ?_, ?_, fun j => ?_⟩
  · cases hwon : out.2.2 with
    | true => simp [TimerWorld.attempted, hwon, (hout.won hwon).1]
    | false => simpa [TimerWorld.attempted, hwon, hout.lost hwon] using h.last
  · cases hwon : out.2.2 with
    | false => simpa [TimerWorld.attempted, hwon] using h.spaced
    | true =>
      simp only [TimerWorld.attempted, hwon, if_true]
      refine List.pairwise_cons.mpr ⟨fun earlier hearlier => ?_, h.spaced⟩
      -- the last of the stamps is `cron_on`, and those before it are older still
      cases hpasses : w.passes with
      | nil => simp [hpasses] at hearlier
      | cons c rest =>
        have hc := (hout.won hwon).2 c (by rw [← h.last, hpasses]; rfl)
        rw [hpasses] at hearlier
        rcases List.mem_cons.mp hearlier with rfl | hrest
        · exact hc
        · have hspaced := h.spaced
          rw [hpasses] at hspaced
          have hbefore := (List.pairwise_cons.mp hspaced).1 earlier hrest
          linarith
  · by_cases hj : j = i
    · subst hj
      simpa [TimerWorld.attempted] using hout.inTime
    · simpa [TimerWorld.attempted, Function.update_of_ne hj] using (h.instances j).later hlater

/-- One step keeps every instance in time. -/
theorem InTime.step (hinterval : 1 ≤ interval ∧ interval ≤ 45) (h : w.InTime interval) (hstep : Step interval w w') :
    w'.InTime interval := by
  cases hstep with
  | elapse d hd hdue =>
    refine ⟨fun c hc => by have := h.stamp c hc; simp only; linarith, h.last, h.spaced, fun i hrunning => ?_⟩
    obtain ⟨t, due, htimer, hlive, hms, harmed, -, hin⟩ := h.instances i hrunning
    exact ⟨t, due, htimer, hlive, hms, harmed, hdue i t due htimer harmed, hin⟩
  | start i => exact h.update (Timekeeper.start_inTime hinterval.1 (h.instances i))
  | stop i => exact h.update (Timekeeper.stop_inTime (h.instances i))
  | immediate i =>
    refine h.attempted hinterval.1 (Timekeeper.onCron_attempted hinterval (fun hrunning => ?_) h.stamp)
    obtain ⟨t, -, htimer, hlive, hms, -⟩ := h.instances i hrunning
    exact ⟨t, htimer, hlive, hms⟩
  | fire i t due htimer =>
    refine h.attempted hinterval.1 (Timekeeper.onTimer_attempted hinterval (fun hrunning => ?_) h.stamp)
    obtain ⟨t', -, htimer', hlive, hms, -⟩ := h.instances i hrunning
    obtain rfl := Option.some.inj (htimer.symm.trans htimer')
    exact ⟨hlive, hms⟩

/-- Every state a run reaches is in time. -/
theorem InTime.run (hinterval : 1 ≤ interval ∧ interval ≤ 45) (h : w₀.InTime interval) (hrun : Run interval w₀ w) :
    w.InTime interval := by
  induction hrun with
  | refl => exact h
  | tail _ hstep ih => exact ih.step hinterval hstep

/-- A step wins a claim at the clock's time or none. -/
theorem Step.passes (h : Step interval w w') : w'.passes = w.passes ∨ w'.passes = w.now :: w.passes := by
  cases h with
  | elapse | start | stop => exact .inl rfl
  | immediate | fire =>
    simp only [TimerWorld.attempted]
    split
    · exact .inr rfl
    · exact .inl rfl

/-- An instance that runs and has tried a claim since it started. -/
def Watches (w : TimerWorld ι) (i : ι) : Prop := (w.instances i).stopped = false ∧ (w.instances i).attempted = true

omit [DecidableEq ι] in
theorem InTime.watches (h : w.InTime interval) (hi : w.Watches i) : ∃ t due c,
    (w.instances i).cronMonitorTimer = some t ∧ t.due = some due ∧ w.cronOn = some c ∧
      due ≤ c + interval * 1000 + Timekeeper.beat interval ∧ w.now ≤ due := by
  obtain ⟨t, due, htimer, -, -, harmed, hnow, hin⟩ := h.instances i hi.1
  obtain ⟨c, hc, hle⟩ := hin hi.2
  exact ⟨t, due, c, htimer, harmed, hc, hle, hnow⟩

/-- Two claims are never won closer than the interval; whoever runs and has tried one is due again
within the interval and the beat of the last stamp; so no claim is won later than that, and less
than a minute after the one before, while such an instance is left. -/
theorem cronPasses_inWindow (hinterval : 1 ≤ interval ∧ interval ≤ 45) (hstart : w₀.Start)
    (hrun : Run interval w₀ w) :
    (w.passes.Pairwise fun later earlier => earlier + interval * 1000 ≤ later) ∧
      (∀ i, w.Watches i → ∃ t due c, (w.instances i).cronMonitorTimer = some t ∧ t.due = some due ∧
        w.cronOn = some c ∧ due ≤ c + interval * 1000 + Timekeeper.beat interval ∧ w.now ≤ due) ∧
      ∀ w' later earlier rest, Step interval w w' → w.passes = earlier :: rest → w'.passes = later :: w.passes →
        (∃ i, w.Watches i) →
          later ≤ earlier + interval * 1000 + Timekeeper.beat interval ∧ later < earlier + 60000 := by
  have h := hstart.inTime.run hinterval hrun
  refine ⟨h.spaced, fun i hi => h.watches hi, fun w' later earlier rest hstep hpasses hlater hwatched => ?_⟩
  obtain ⟨i, hi⟩ := hwatched
  obtain ⟨t, due, c, -, -, hc, hdue, hnow⟩ := h.watches hi
  have hearlier : earlier = c := by
    have hlast := h.last
    rw [hpasses, hc] at hlast
    exact Option.some.inj hlast
  have hwon : later = w.now := by
    rcases hstep.passes with hsame | hsame
    · rw [hsame] at hlater
      exact absurd hlater.symm (List.cons_ne_self _ _)
    · exact (List.cons.inj (hlater.symm.trans hsame)).1
  have hbeat : Timekeeper.beat interval ≤ 1000 := min_le_left _ _
  subst hearlier hwon
  exact ⟨by linarith, by linarith⟩

end TimerWorld

section Handover

open TimerWorld

/-- No instance has started and no pass has run. -/
def idleWorld : TimerWorld Bool := { now := 0, cronOn := none, instances := fun _ => {}, passes := [] }

/-- The attempt an instance leaves to `setImmediate` when it starts, of a deployment whose interval is
the longest allowed. -/
def firstAttempt (i : Bool) (w : TimerWorld Bool) : TimerWorld Bool :=
  let started := { w with instances := Function.update w.instances i ((w.instances i).start 45 w.now) }
  started.attempted i (Timekeeper.onCron 45 started.now started.cronOn
    { started.instances i with immediates := (started.instances i).immediates - 1 })

/-- An instance wins the first claim, another loses to it ten seconds later, the first one stops, and the
other's timer comes due. -/
def handedOver : TimerWorld Bool :=
  let won := firstAttempt true idleWorld
  let lost := firstAttempt false { won with now := won.now + 10000 }
  let left := { lost with instances := Function.update lost.instances true (lost.instances true).stop }
  { left with now := left.now + 36000 }

theorem elapse_of {w : TimerWorld Bool} (d : ℚ) (hd : 0 ≤ d)
    (h : ∀ i, ∀ t ∈ (w.instances i).cronMonitorTimer, ∀ due ∈ t.due, w.now + d ≤ due) :
    Step 45 w { w with now := w.now + d } := .elapse d hd fun i t due ht hdue => h i t ht due hdue

theorem handedOver_run : Run 45 idleWorld handedOver := by
  have hwon : Run 45 idleWorld (firstAttempt true idleWorld) :=
    (Relation.ReflTransGen.single (.start true)).tail (.immediate true (by decide +kernel))
  have hlost := ((hwon.tail (elapse_of 10000 (by norm_num) (by decide +kernel))).tail (.start false)).tail
    (.immediate false (by decide +kernel))
  exact (hlost.tail (.stop true)).tail (elapse_of 36000 (by norm_num) (by decide +kernel))

/-- The theorem where the holder stops: the other instance claims a beat after the interval. -/
theorem cronPasses_inWindow_handedOver : ∃ w' : TimerWorld Bool, Step 45 handedOver w' ∧ w'.passes = [46000, 0] ∧
    (46000 : ℚ) ≤ 0 + 45 * 1000 + Timekeeper.beat 45 ∧ (46000 : ℚ) < 0 + 60000 := by
  have hfire : Step 45 handedOver _ := .fire false ⟨45000, some 46000, false, true⟩ 46000
    (by decide +kernel) rfl (by decide +kernel)
  have hstart : idleWorld.Start := ⟨fun _ => rfl, nofun, rfl⟩
  obtain ⟨-, -, hnext⟩ := cronPasses_inWindow (by norm_num) hstart handedOver_run
  refine ⟨_, hfire, by decide +kernel, hnext _ 46000 0 [] hfire (by decide +kernel) (by decide +kernel) ⟨false, ?_⟩⟩
  exact ⟨by decide +kernel, by decide +kernel⟩

end Handover

end PgBoss
