import PgBoss.Clock.Fired

/-!
# Jumps and ticks

A jump makes the timers it passes due at its time, where they stay until a tick fires them: nothing but a clear, or a
jump back, comes between.
-/

namespace PgBoss

namespace TestClock

section Ticks

variable {c c' : TestClock} {ms : ℚ} {log : List ClockEntry}

theorem ticking_start (h : Inv c) : Ticking c ms { c with busy := some (.start ms) } [] where
  inv := h.busy rfl nofun
  place := .inl ⟨rfl, rfl⟩
  start := le_rfl
  ordered := List.Pairwise.nil
  fired _ _ _ hfired := nomatch hfired
  given timer harmed := by
    have hmem : timer ∈ c.timers := harmed.resolve_right (by simp)
    exact h.given timer (List.mem_append_right _ hmem)
  known u hu := ⟨u, .inl hu, rfl⟩
  gone _ hcleared := nomatch hcleared
  exact timer harmed _ := by
    have hmem : timer ∈ c.timers := harmed.resolve_right (by simp)
    refine ⟨0, rfl, ?_⟩
    have hfirst : timer.dueAt 0 = some timer.due := by
      cases hinterval : timer.interval <;> simp [ClockTimer.dueAt, hinterval]
    unfold Waits
    rw [hfirst]
    exact ⟨timer, hmem, rfl, rfl, rfl⟩

theorem Run.ticking (h : Inv c) (hms : 0 ≤ ms) {events : List ClockEvent}
    (hrun : Run Undisturbed { c with busy := some (.start ms) } events c' log) : Ticking c ms c' log := by
  induction hrun with
  | nil => exact ticking_start h
  | snoc _ hmay hstep ih => exact ih.step hms hmay hstep

/-- What a tick of `ms` from `c` did until `c'`: it fired, in order of due time and never early, only timers it had, none
behind its clear, and of each that was not cleared the first due times, none of them skipped, at its end all that the
target reaches. It takes `now` to its target, and ends if no more timers are set. -/
structure TickReport (c : TestClock) (ms : ℚ) (c' : TestClock) (log : List ClockEntry) : Prop where
  ordered : log.Pairwise InOrder
  onTime : ∀ handle due now, .fired handle due now ∈ log → due ≤ now ∧ due ≤ c.now + ms
  armed : ∀ handle due now, .fired handle due now ∈ log → ∃ timer, Armed c log timer ∧ timer.handle = handle
  exact : ∀ timer, Armed c log timer → .cleared timer.handle ∉ log →
    ∃ k, duesOf timer.handle log = (List.range k).filterMap timer.dueAt ∧
      ∀ due, timer.dueAt k = some due → c'.now ≤ due ∧ (c'.busy = none → c.now + ms < due)
  steady : ∀ e c'' log', Undisturbed c' e → c'.step e = some (c'', log') → c'.now ≤ c''.now
  arrived : c'.busy = none → c'.now = c.now + ms
  goesOn : c'.busy ≠ none → c'.step .goesOn ≠ none
  ends : ∃ n, ∀ events c'' log', Run Undisturbed c' events c'' log' → (∀ e ∈ events, ¬ Arms e) → events.count .goesOn ≤ n

theorem At.done {first : ℚ} (h : At first ms c) (hidle : c.busy = none) :
    c.now = first + ms ∧ ∀ timer ∈ c.pending, first + ms < timer.due := by
  rcases h with ⟨hbusy, -⟩ | htarget | ⟨-, hdone⟩
  · rw [hidle] at hbusy
    cases hbusy
  · simp [target, hidle] at htarget
  · exact hdone

theorem Ticking.report (h : Ticking c ms c' log) (hms : 0 ≤ ms) : TickReport c ms c' log where
  ordered := h.ordered
  onTime handle due now hfired := by
    obtain ⟨hdue, -, htarget, -⟩ := h.fired handle due now hfired
    exact ⟨hdue, htarget⟩
  armed handle due now hfired := (h.fired handle due now hfired).2.2.2
  exact timer harmed huncleared := by
    obtain ⟨k, hdues, hwaits⟩ := h.exact timer harmed huncleared
    refine ⟨k, hdues, fun due hdue => ?_⟩
    rw [Waits, hdue] at hwaits
    obtain ⟨u, hu, -, -, rfl⟩ := hwaits
    exact ⟨h.inv.ahead u hu, fun hidle => (h.place.done hidle).2 u hu⟩
  steady e c'' log' hmay hstep := (h.inv.tickStep hms h.place hmay hstep).2.2.1
  arrived hidle := (h.place.done hidle).1
  goesOn hbusy := by
    obtain ⟨wait, hwait⟩ := Option.ne_none_iff_exists'.mp hbusy
    simp [TestClock.step, hwait]
  ends := by
    refine ⟨work (c.now + ms) c', fun events c'' log' hrun harms => ?_⟩
    have hwork := (hrun.work h.inv hms h.place harms).2
    omega

end Ticks

section Jumps

variable {c c' : TestClock} {log : List ClockEntry} {handle : ℕ} {interval : Option ℚ}

/-- A step between a jump and the next tick that neither clears a timer nor goes back in time. -/
def Keeps (handle : ℕ) (c : TestClock) (e : ClockEvent) : Prop :=
  e ≠ .clear handle ∧ (c.busy = none → ∀ t, (e = .setTime t → c.now ≤ t) ∧ e ≠ .tick t)

/-- A timer that is due now, while no tick is under way. -/
structure DueNow (handle : ℕ) (interval : Option ℚ) (c : TestClock) : Prop where
  timer : ∃ timer ∈ c.timers, timer.handle = handle ∧ timer.interval = interval ∧ timer.due = c.now
  place : c.busy = none ∨ c.busy = some .pushJump ∨ ∃ next, c.busy = some (.jump next) ∧ c.now ≤ next

theorem Inv.jump_due (h : Inv c) {next : ℚ} (hbusy : c.busy = some (.jump next)) {timer : ClockTimer} (hmem : timer ∈ c.timers)
    (hdue : timer.due ≤ next) : DueNow timer.handle timer.interval (c.goOn (.jump next)).1 := by
  refine ⟨⟨{ timer with due := max timer.due next }, ?_, rfl, rfl, max_eq_right hdue⟩, .inr (.inl rfl)⟩
  rw [(h.jump hbusy).1]
  exact List.mem_map_of_mem hmem

theorem DueNow.step (h : DueNow handle interval c) (hinv : Inv c) {e : ClockEvent} (hmay : Keeps handle c e)
    (hstep : c.step e = some (c', log)) : DueNow handle interval c' := by
  obtain ⟨⟨timer, hmem, rfl, rfl, hdue⟩, hplace⟩ := h
  cases e with
  | setTimeout ms =>
    cases hstep
    exact ⟨⟨timer, mem_insertTimer.mpr (.inr hmem), rfl, rfl, hdue⟩, hplace⟩
  | setInterval ms =>
    cases hstep
    exact ⟨⟨timer, mem_insertTimer.mpr (.inr hmem), rfl, rfl, hdue⟩, hplace⟩
  | clear other =>
    simp only [TestClock.step, Option.ite_none_right_eq_some, Option.some.injEq] at hstep
    obtain ⟨-, heq⟩ := hstep
    cases heq
    have hne : timer.handle ≠ other := by
      rintro rfl
      exact hmay.1 rfl
    have hkept : timer ∈ c.timers.eraseP fun u => u.handle = other := (List.mem_eraseP_of_neg (by simpa using hne)).mpr hmem
    exact ⟨⟨timer, hkept, rfl, rfl, hdue⟩, hplace⟩
  | setTime t =>
    simp only [TestClock.step, Option.some.injEq, Prod.mk.injEq] at hstep
    rw [← hstep.1]
    split_ifs with hbusy
    · exact ⟨⟨timer, hmem, rfl, rfl, hdue⟩, hplace⟩
    · have hidle : c.busy = none := by simpa using hbusy
      exact ⟨⟨timer, hmem, rfl, rfl, hdue⟩, .inr (.inr ⟨t, rfl, ((hmay.2 hidle t).1 rfl)⟩)⟩
  | tick ms =>
    simp only [TestClock.step, Option.some.injEq, Prod.mk.injEq] at hstep
    rw [← hstep.1]
    split_ifs with hbusy
    · exact ⟨⟨timer, hmem, rfl, rfl, hdue⟩, hplace⟩
    · have hidle : c.busy = none := by simpa using hbusy
      exact absurd rfl (hmay.2 hidle ms).2
  | throws =>
    simp only [TestClock.step, Option.ite_none_right_eq_some, Option.some.injEq, Prod.mk.injEq] at hstep
    rw [← hstep.2.1]
    exact ⟨⟨timer, hmem, rfl, rfl, hdue⟩, .inl rfl⟩
  | goesOn =>
    obtain ⟨wait, hwait, heq⟩ := Option.map_eq_some_iff.mp hstep
    obtain rfl : (c.goOn wait).1 = c' := congrArg Prod.fst heq
    rcases hplace with hidle | hpush | ⟨next, hjump, hnext⟩
    · rw [hidle] at hwait
      cases hwait
    · cases hpush.symm.trans hwait
      exact ⟨⟨timer, hmem, rfl, rfl, hdue⟩, .inl rfl⟩
    · cases hjump.symm.trans hwait
      exact hinv.jump_due hjump hmem (hdue ▸ hnext)

theorem Run.dueNow (h : DueNow handle interval c) (hinv : Inv c) {events : List ClockEvent}
    (hrun : Run (Keeps handle) c events c' log) : DueNow handle interval c' := by
  induction hrun with
  | nil => exact h
  | snoc hbefore hmay hstep ih => exact ih.step (hbefore.inv hinv) hmay hstep

/-- A timer due now at the start of a tick is fired then, and an interval again after each period until the target. -/
theorem TickReport.dueNow {ms : ℚ} (h : TickReport c ms c' log) (hms : 0 ≤ ms) (hended : c'.busy = none)
    (hdue : DueNow handle interval c) (huncleared : .cleared handle ∉ log) :
    (interval = none → duesOf handle log = [c.now]) ∧
      ∀ period, interval = some period → ∃ k : ℕ, duesOf handle log = (List.range (k + 1)).map (fun n : ℕ => c.now + n * period) ∧
        c.now + k * period ≤ c.now + ms ∧ c.now + ms < c.now + (k + 1) * period := by
  obtain ⟨timer, hmem, rfl, rfl, hnow⟩ := hdue.timer
  obtain ⟨k, hdues, hnext⟩ := h.exact timer (.inl hmem) huncleared
  have hreached : k ≠ 0 := by
    rintro rfl
    have hfirst : timer.dueAt 0 = some timer.due := by
      cases hinterval : timer.interval <;> simp [ClockTimer.dueAt, hinterval]
    have hlate := (hnext _ hfirst).2 hended
    linarith
  obtain ⟨k, rfl⟩ := Nat.exists_eq_succ_of_ne_zero hreached
  refine ⟨fun hinterval => ?_, fun period hinterval => ⟨k, ?_, ?_, ?_⟩⟩
  · have hat : ∀ n, timer.dueAt (n + 1) = none := fun n => by simp [ClockTimer.dueAt, hinterval]
    rw [hdues, List.range_succ_eq_map, List.filterMap_cons]
    simp [ClockTimer.dueAt, hinterval, hnow, List.filterMap_map, Function.comp_def]
  · have hat : timer.dueAt = fun n : ℕ => some (c.now + n * period) := by
      funext n
      simp [ClockTimer.dueAt, hinterval, hnow]
    rw [hdues, hat]
    exact congrFun List.filterMap_eq_map _
  · have hlast : c.now + k * period ∈ duesOf timer.handle log := by
      rw [hdues]
      exact List.mem_filterMap.mpr ⟨k, List.mem_range.mpr (Nat.lt_succ_self k), by simp [ClockTimer.dueAt, hinterval, hnow]⟩
    obtain ⟨now, hfired⟩ := mem_duesOf.mp hlast
    exact (h.onTime _ _ _ hfired).2
  · have hlate := (hnext (c.now + (k + 1) * period) (by simp [ClockTimer.dueAt, hinterval, hnow])).2 hended
    exact hlate

/-- At every point of every run: a tick by a nonnegative amount that is not thrown out of does what `TickReport` says, and
a timer that a jump passes is due at the jump's time when the next tick begins, which fires it then. -/
theorem testClock_fires_in_order {start : ℚ} {before : List ClockEvent} {entries : List ClockEntry}
    (hreach : Run any { now := start } before c entries) :
    (∀ ms events c' log, c.busy = none → 0 ≤ ms → Run Undisturbed { c with busy := some (.start ms) } events c' log →
        TickReport c ms c' log) ∧
      ∀ next timer, c.busy = some (.jump next) → timer ∈ c.timers → timer.due < next →
        ∀ events c' log, Run (Keeps timer.handle) (c.goOn (.jump next)).1 events c' log → c'.busy = none →
          ∀ ms events' c'' log', 0 ≤ ms → Run Undisturbed { c' with busy := some (.start ms) } events' c'' log' →
            c''.busy = none → .cleared timer.handle ∉ log' →
              (timer.interval = none → duesOf timer.handle log' = [c'.now]) ∧
                ∀ period, timer.interval = some period →
                  ∃ k : ℕ, duesOf timer.handle log' = (List.range (k + 1)).map (fun n : ℕ => c'.now + n * period) ∧
                    c'.now + k * period ≤ c'.now + ms ∧ c'.now + ms < c'.now + (k + 1) * period := by
  have hinv : Inv c := hreach.inv (inv_new start)
  refine ⟨fun ms events c' log hidle hms hrun => (hrun.ticking hinv hms).report hms, ?_⟩
  intro next timer hbusy hmem hdue events c' log hkept hidle ms events' c'' log' hms hrun hended huncleared
  have hjumped : Inv (c.goOn (.jump next)).1 := (hinv.jump hbusy).2
  have hnow := hkept.dueNow (hinv.jump_due hbusy hmem hdue.le) hjumped
  have hreport := (hrun.ticking (hkept.inv hjumped) hms).report hms
  exact hreport.dueNow hms hended hnow huncleared

/-- The events one after another, if the run may take each. -/
def play (may : TestClock → ClockEvent → Prop) [∀ c e, Decidable (may c e)] (events : List ClockEvent) (c : TestClock) :
    Option (TestClock × List ClockEntry) :=
  events.foldl (fun played e => played.bind fun (c, log) =>
    if may c e then (c.step e).map fun (c', log') => (c', log ++ log') else none) (some (c, []))

/-- Playing events a run may take is a run. -/
theorem play_run {may : TestClock → ClockEvent → Prop} [∀ c e, Decidable (may c e)] {events : List ClockEvent}
    (h : play may events c = some (c', log)) : Run may c events c' log := by
  induction events using List.reverseRecOn generalizing c' log with
  | nil =>
    obtain ⟨rfl, rfl⟩ := Prod.mk.inj (Option.some.inj h)
    exact .nil
  | append_singleton events e ih =>
    rw [play, List.foldl_append] at h
    obtain ⟨⟨mid, before⟩, hbefore, h⟩ := Option.bind_eq_some_iff.mp h
    obtain ⟨hmay, h⟩ := Option.ite_none_right_eq_some.mp h
    obtain ⟨⟨_, after⟩, hstep, h⟩ := Option.map_eq_some_iff.mp h
    obtain ⟨rfl, rfl⟩ := Prod.mk.inj h
    exact (ih hbefore).snoc hmay hstep

instance (c : TestClock) (e : ClockEvent) : Decidable (any c e) := instDecidableTrue

instance (c : TestClock) (e : ClockEvent) : Decidable (Undisturbed c e) :=
  inferInstanceAs (Decidable (_ ∧ _ ∧ ∀ timer ∈ held c.busy, e ≠ .clear timer.handle))

/-- An interval of 10 ms and a timer of 12 ms that a jump to 25 passes. -/
def jumpedTimers : List ClockEvent := [.setInterval 10, .setTimeout 12, .setTime 25]

/-- A tick of 12 ms from there. The callback of the interval clears the timer. -/
def clearingTick : List ClockEvent :=
  [.goesOn, .clear 1, .goesOn, .goesOn, .goesOn, .goesOn, .goesOn, .goesOn, .goesOn]

/-- The theorem over that run: the interval fires at the jump's time and once more in the tick, the timer it clears does
not, and the tick ends at its target. -/
theorem testClock_fires_in_order_jumped :
    ∃ c log, after (jumpedTimers ++ .goesOn :: .goesOn :: .tick 12 :: clearingTick) { now := 0 } = some (c, log) ∧ c.now = 37 ∧
      duesOf 0 log = [25, 35] ∧ duesOf 1 log = [] := by
  let interval : ClockTimer := { handle := 0, due := 10, seq := 0, interval := some 10 }
  let timer : ClockTimer := { handle := 1, due := 12, seq := 1, interval := none }
  let overdue : List ClockTimer := [{ interval with due := 25 }, { timer with due := 25 }]
  let ended : TestClock := { now := 37, timers := [{ interval with due := 45, seq := 3 }], seq := 4 }
  let ticked : List ClockEntry := [.fired 0 25 25, .cleared 1, .fired 0 35 35]
  have hreach : Run any { now := 0 } jumpedTimers
      { now := 0, timers := [interval, timer], seq := 2, busy := some (.jump 25) } [.armed interval, .armed timer] :=
    play_run (by decide +kernel)
  have hkept : Run (Keeps 0) { now := 25, timers := overdue, seq := 2, busy := some .pushJump } [.goesOn]
      { now := 25, timers := overdue, seq := 2 } [] := Run.nil.snoc ⟨nofun, nofun⟩ rfl
  have htick : Run Undisturbed { now := 25, timers := overdue, seq := 2, busy := some (.start 12) } clearingTick ended ticked :=
    play_run (by decide +kernel)
  have hpassed := (testClock_fires_in_order hreach).2 25 interval rfl List.mem_cons_self (by norm_num) _ _ _ hkept rfl 12 _ _ _
    (by norm_num) htick rfl (by decide +kernel)
  obtain ⟨k, hdues, hlast, hnext⟩ := hpassed.2 10 rfl
  -- of the due times from 25 on, two are up to 37
  obtain rfl : k = 1 := by
    have hupper : (k : ℚ) < 2 := by linarith
    have hlower : (0 : ℚ) < k := by linarith
    norm_cast at hupper hlower
    omega
  have hjumped : Run any { now := 0 } (jumpedTimers ++ [.goesOn] ++ [.goesOn]) { now := 25, timers := overdue, seq := 2 } _ :=
    (hreach.snoc (e := .goesOn) trivial rfl).snoc (e := .goesOn) trivial rfl
  have harrived := ((testClock_fires_in_order hjumped).1 12 _ _ _ rfl (by norm_num) htick).arrived rfl
  refine ⟨ended, [.armed interval, .armed timer] ++ ticked, by decide +kernel, ?_, ?_, by decide +kernel⟩
  · rw [harrived]
    norm_num
  · have hfired : duesOf 0 ticked = [25, 35] := hdues.trans (by norm_num [List.range_succ])
    rw [duesOf_append, hfired]
    rfl

/-- A tick back in time does not end at its target, and an interval that a jump passed fires again in a tick that is
longer than its period. -/
theorem testClock_tick_back_and_over :
    (after [.tick (-1), .goesOn] { now := 0 } = some ({ now := 0 }, []) ∧ (0 : ℚ) ≠ 0 + -1) ∧
      ∃ c log, after [.setInterval 10, .setTime 25, .goesOn, .goesOn, .tick 10, .goesOn, .goesOn, .goesOn, .goesOn, .goesOn,
        .goesOn] { now := 0 } = some (c, log) ∧ c.busy = none ∧ duesOf 0 log = [25, 35] := by
  let timer : ClockTimer := { handle := 0, due := 10, seq := 0, interval := some 10 }
  refine ⟨⟨by decide +kernel, by norm_num⟩, { now := 35, timers := [{ timer with due := 45, seq := 2 }], seq := 3 },
    [.armed timer, .fired 0 25 25, .fired 0 35 35], by decide +kernel, rfl, by decide +kernel⟩

end Jumps

end TestClock

end PgBoss
