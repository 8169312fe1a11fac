import PgBoss.Clock.Ticks

/-!
# A tick fires every due timer once

The log of a tick against the timers it had: those of the list and those set while it was under way. Of each that is
not cleared it fired a beginning of its due times, and waits with the next of them.
-/

namespace PgBoss

/-- The due time of a timer's firing after `k` others. -/
def ClockTimer.dueAt (timer : ClockTimer) (k : ℕ) : Option ℚ :=
  match timer.interval with
  | none => if k = 0 then some timer.due else none
  | some period => some (timer.due + k * period)

namespace TestClock

/-- The due times a timer was fired at. -/
def duesOf (handle : ℕ) (log : List ClockEntry) : List ℚ :=
  log.filterMap fun
    | .fired handle' due _ => if handle' = handle then some due else none
    | _ => none

/-- The timers a tick has: those of its clock, and those set since. -/
def Armed (c : TestClock) (log : List ClockEntry) (timer : ClockTimer) : Prop := timer ∈ c.timers ∨ .armed timer ∈ log

/-- Firings in order of due time, and none of a timer behind its clear. -/
def InOrder : ClockEntry → ClockEntry → Prop
  | .fired _ due _, .fired _ due' _ => due ≤ due'
  | .cleared handle, .fired handle' _ _ => handle ≠ handle'
  | _, _ => True

/-- After `k` firings, a timer waits with its next due time, where it has one. -/
def Waits (c : TestClock) (timer : ClockTimer) (k : ℕ) : Prop :=
  match timer.dueAt k with
  | some due => ∃ u ∈ c.pending, u.handle = timer.handle ∧ u.interval = timer.interval ∧ u.due = due
  | none => ∀ u ∈ c.pending, u.handle ≠ timer.handle

/-- What holds throughout a tick of `ms` that began at `c`. -/
structure Ticking (c : TestClock) (ms : ℚ) (c' : TestClock) (log : List ClockEntry) : Prop where
  inv : Inv c'
  place : At c.now ms c'
  start : c.now ≤ c'.now
  ordered : log.Pairwise InOrder
  fired : ∀ handle due now, .fired handle due now ∈ log →
    due ≤ now ∧ now ≤ c'.now ∧ due ≤ c.now + ms ∧ ∃ timer, Armed c log timer ∧ timer.handle = handle
  given : ∀ timer, Armed c log timer → timer.handle < c'.seq
  known : ∀ u ∈ c'.pending, ∃ timer, Armed c log timer ∧ timer.handle = u.handle
  gone : ∀ handle, .cleared handle ∈ log → handle < c'.seq ∧ ∀ u ∈ c'.pending, u.handle ≠ handle
  exact : ∀ timer, Armed c log timer → .cleared timer.handle ∉ log →
    ∃ k, duesOf timer.handle log = (List.range k).filterMap timer.dueAt ∧ Waits c' timer k

section Parts

variable {c c' c'' : TestClock} {ms : ℚ} {log : List ClockEntry} {timer : ClockTimer} {k : ℕ}

theorem At.le (h : At c.now ms c') (hms : 0 ≤ ms) (hinv : Inv c') : c'.now ≤ c.now + ms := by
  rcases h with ⟨-, hnow⟩ | htarget | ⟨-, hnow, -⟩
  · rw [hnow]
    exact le_add_of_nonneg_right hms
  · exact hinv.within _ htarget
  · exact hnow.le

@[simp] theorem duesOf_append (handle : ℕ) (log log' : List ClockEntry) :
    duesOf handle (log ++ log') = duesOf handle log ++ duesOf handle log' := List.filterMap_append

@[simp] theorem duesOf_armed (handle : ℕ) : duesOf handle [.armed timer] = [] := rfl

@[simp] theorem duesOf_cleared (handle handle' : ℕ) : duesOf handle [.cleared handle'] = [] := rfl

@[simp] theorem duesOf_fired (handle handle' : ℕ) (due now : ℚ) :
    duesOf handle [.fired handle' due now] = if handle' = handle then [due] else [] := by
  unfold duesOf
  split_ifs with h <;> simp [h]

theorem mem_duesOf {handle : ℕ} {due : ℚ} : due ∈ duesOf handle log ↔ ∃ now, .fired handle due now ∈ log := by
  refine List.mem_filterMap.trans ⟨?_, fun ⟨now, hfired⟩ => ⟨_, hfired, by simp⟩⟩
  rintro ⟨entry, hentry, hmatch⟩
  cases entry with
  | fired handle' due' now =>
    simp only [Option.ite_none_right_eq_some, Option.some.injEq] at hmatch
    obtain ⟨rfl, rfl⟩ := hmatch
    exact ⟨now, hentry⟩
  | armed timer => cases hmatch
  | cleared handle' => cases hmatch

theorem duesOf_eq_nil {handle : ℕ} (h : ∀ due now, .fired handle due now ∉ log) : duesOf handle log = [] := by
  refine List.eq_nil_iff_forall_not_mem.mpr fun due hdue => ?_
  obtain ⟨now, hfired⟩ := mem_duesOf.mp hdue
  exact h due now hfired

/-- A timer's waiting depends on the pending timers of its handle only. -/
theorem Waits.congr (h : Waits c timer k) (hsame : ∀ u, u.handle = timer.handle → (u ∈ c'.pending ↔ u ∈ c.pending)) :
    Waits c' timer k := by
  unfold Waits at h ⊢
  split at h
  · obtain ⟨u, hu, hhandle, hrest⟩ := h
    exact ⟨u, (hsame u hhandle).mpr hu, hhandle, hrest⟩
  · exact fun u hu hhandle => h u ((hsame u hhandle).mp hu) hhandle

/-- The firing of a timer is that of its next due time. -/
theorem Waits.fired (h : Waits c timer k) (hinv : Inv c) {u : ClockTimer} (hu : u ∈ c.pending) (hhandle : u.handle = timer.handle)
    (hpending : ∀ v, v ∈ c'.pending ↔ v ∈ c.pending ∧ v.handle ≠ u.handle ∨
      ∃ p, u.interval = some p ∧ v = { u with due := u.due + p, seq := c.seq }) :
    timer.dueAt k = some u.due ∧ Waits c' timer (k + 1) := by
  unfold Waits at h
  cases hdue : timer.dueAt k with
  | none =>
    rw [hdue] at h
    exact absurd hhandle (h u hu)
  | some due =>
    rw [hdue] at h
    obtain ⟨v, hv, hsame, hinterval, hvdue⟩ := h
    obtain rfl : v = u := List.inj_on_of_nodup_map hinv.unique hv hu (hsame.trans hhandle.symm)
    subst hvdue
    refine ⟨rfl, ?_⟩
    unfold Waits
    cases hperiod : timer.interval with
    | none =>
      have hlast : timer.dueAt (k + 1) = none := by simp [ClockTimer.dueAt, hperiod]
      rw [hlast]
      intro w hw
      rcases (hpending w).mp hw with ⟨-, hne⟩ | ⟨p, hp, -⟩
      · exact hsame ▸ hne
      · rw [hinterval, hperiod] at hp
        cases hp
    | some p =>
      have hnow : timer.due + k * p = v.due := by simpa [ClockTimer.dueAt, hperiod] using hdue
      have hnext : timer.dueAt (k + 1) = some (v.due + p) := by
        simp only [ClockTimer.dueAt, hperiod, Option.some.injEq]
        rw [← hnow]
        push_cast
        ring
      rw [hnext]
      exact ⟨_, (hpending _).mpr (.inr ⟨p, hinterval.trans hperiod, rfl⟩), hsame, hinterval.trans hperiod, rfl⟩

theorem Ticking.waits (h : Ticking c ms c' log) (hinv : Inv c'') (hplace : At c.now ms c'') (hnow : c'.now ≤ c''.now)
    (hpending : c''.pending = c'.pending) (hseq : c''.seq = c'.seq) : Ticking c ms c'' log where
  inv := hinv
  place := hplace
  start := h.start.trans hnow
  ordered := h.ordered
  fired handle due now hfired := by
    obtain ⟨hdue, hle, hrest⟩ := h.fired handle due now hfired
    exact ⟨hdue, hle.trans hnow, hrest⟩
  given timer harmed := hseq ▸ h.given timer harmed
  known u hu := h.known u (hpending ▸ hu)
  gone handle hcleared := by
    rw [hseq, hpending]
    exact h.gone handle hcleared
  exact timer harmed huncleared := by
    obtain ⟨k, hdues, hwaits⟩ := h.exact timer harmed huncleared
    exact ⟨k, hdues, hwaits.congr fun u _ => by rw [hpending]⟩

theorem Armed.snoc {entry : ClockEntry} (h : Armed c (log ++ [entry]) timer) (hentry : entry ≠ .armed timer) : Armed c log timer := by
  rcases h with h | h
  · exact .inl h
  · rcases List.mem_append.mp h with h | h
    · exact .inr h
    · exact absurd (List.mem_singleton.mp h).symm hentry

theorem Armed.mono {entry : ClockEntry} (h : Armed c log timer) : Armed c (log ++ [entry]) timer :=
  h.imp_right (List.mem_append_left _)

theorem Ticking.arms (h : Ticking c ms c' log) (hinv : Inv c'') (hplace : At c.now ms c'') (hnow : c'.now ≤ c''.now)
    (hpending : ∀ u, u ∈ c''.pending ↔ u = timer ∨ u ∈ c'.pending) (hhandle : timer.handle = c'.seq) (hseq : c''.seq = c'.seq + 1) :
    Ticking c ms c'' (log ++ [.armed timer]) where
  inv := hinv
  place := hplace
  start := h.start.trans hnow
  ordered := List.pairwise_append.mpr ⟨h.ordered, List.pairwise_singleton _ _, fun a _ b hb => by
    rw [List.mem_singleton.mp hb]
    cases a <;> trivial⟩
  fired handle due now hfired := by
    have hold := (List.mem_append.mp hfired).resolve_right (by simp)
    obtain ⟨hdue, hle, htarget, u, hu, heq⟩ := h.fired handle due now hold
    exact ⟨hdue, hle.trans hnow, htarget, u, hu.mono, heq⟩
  given u hu := by
    by_cases heq : u = timer
    · rw [heq, hhandle, hseq]
      exact Nat.lt_succ_self _
    · rw [hseq]
      exact (h.given u (hu.snoc fun hentry => heq (ClockEntry.armed.inj hentry).symm)).trans (Nat.lt_succ_self _)
  known u hu := by
    rcases (hpending u).mp hu with rfl | hu
    · exact ⟨u, .inr (List.mem_append_right _ (List.mem_singleton_self _)), rfl⟩
    · obtain ⟨v, hv, heq⟩ := h.known u hu
      exact ⟨v, hv.mono, heq⟩
  gone handle hcleared := by
    obtain ⟨hlt, hgone⟩ := h.gone handle ((List.mem_append.mp hcleared).resolve_right (by simp))
    refine ⟨hseq ▸ hlt.trans (Nat.lt_succ_self _), fun u hu => ?_⟩
    rcases (hpending u).mp hu with rfl | hu
    · rw [hhandle]
      exact hlt.ne'
    · exact hgone u hu
  exact u hu huncleared := by
    rw [duesOf_append, duesOf_armed, List.append_nil]
    by_cases heq : u = timer
    · subst heq
      have hnever : ∀ due now, .fired u.handle due now ∉ log := by
        intro due now hfired
        obtain ⟨-, -, -, v, hv, hsame⟩ := h.fired _ due now hfired
        have hlt := h.given v hv
        omega
      refine ⟨0, by rw [duesOf_eq_nil hnever]; rfl, ?_⟩
      have hfirst : u.dueAt 0 = some u.due := by
        cases hinterval : u.interval <;> simp [ClockTimer.dueAt, hinterval]
      unfold Waits
      rw [hfirst]
      exact ⟨u, (hpending u).mpr (.inl rfl), rfl, rfl, rfl⟩
    · have hold : Armed c log u := hu.snoc fun hentry => heq (ClockEntry.armed.inj hentry).symm
      obtain ⟨k, hdues, hwaits⟩ := h.exact u hold fun hcleared => huncleared (List.mem_append_left _ hcleared)
      refine ⟨k, hdues, hwaits.congr fun v hv => ?_⟩
      have hne : v ≠ timer := by
        rintro rfl
        have hlt := h.given u hold
        omega
      rw [hpending, or_iff_right hne]

theorem Ticking.clears (h : Ticking c ms c' log) (hinv : Inv c'') (hplace : At c.now ms c'') (hnow : c'.now ≤ c''.now) {handle : ℕ}
    (hpending : ∀ u, u ∈ c''.pending ↔ u ∈ c'.pending ∧ u.handle ≠ handle) (hgiven : handle < c'.seq) (hseq : c''.seq = c'.seq) :
    Ticking c ms c'' (log ++ [.cleared handle]) where
  inv := hinv
  place := hplace
  start := h.start.trans hnow
  ordered := List.pairwise_append.mpr ⟨h.ordered, List.pairwise_singleton _ _, fun a _ b hb => by
    rw [List.mem_singleton.mp hb]
    cases a <;> trivial⟩
  fired handle due now hfired := by
    have hold := (List.mem_append.mp hfired).resolve_right (by simp)
    obtain ⟨hdue, hle, htarget, u, hu, heq⟩ := h.fired handle due now hold
    exact ⟨hdue, hle.trans hnow, htarget, u, hu.mono, heq⟩
  given u hu := hseq ▸ h.given u (hu.snoc nofun)
  known u hu := by
    obtain ⟨v, hv, heq⟩ := h.known u ((hpending u).mp hu).1
    exact ⟨v, hv.mono, heq⟩
  gone handle' hcleared := by
    rw [hseq]
    rcases List.mem_append.mp hcleared with hcleared | hcleared
    · obtain ⟨hlt, hgone⟩ := h.gone handle' hcleared
      exact ⟨hlt, fun u hu => hgone u ((hpending u).mp hu).1⟩
    · cases List.mem_singleton.mp hcleared
      exact ⟨hgiven, fun u hu => ((hpending u).mp hu).2⟩
  exact u hu huncleared := by
    obtain ⟨k, hdues, hwaits⟩ := h.exact u (hu.snoc nofun) fun hcleared => huncleared (List.mem_append_left _ hcleared)
    refine ⟨k, by rw [duesOf_append, duesOf_cleared, List.append_nil, hdues], hwaits.congr fun v hv => ?_⟩
    have hne : v.handle ≠ handle := by
      rintro rfl
      exact huncleared (List.mem_append_right _ (by rw [hv]; exact List.mem_singleton_self _))
    rw [hpending, and_iff_left hne]

theorem Ticking.fires (h : Ticking c ms c' log) (hms : 0 ≤ ms) (hinv : Inv c'') (hplace : At c.now ms c'') (hnow : c'.now ≤ c''.now)
    (hmem : timer ∈ c'.pending) (hdue : timer.due = c'.now)
    (hpending : ∀ u, u ∈ c''.pending ↔ u ∈ c'.pending ∧ u.handle ≠ timer.handle ∨
      ∃ p, timer.interval = some p ∧ u = { timer with due := timer.due + p, seq := c'.seq }) (hseq : c'.seq ≤ c''.seq) :
    Ticking c ms c'' (log ++ [.fired timer.handle timer.due c'.now]) where
  inv := hinv
  place := hplace
  start := h.start.trans hnow
  ordered := List.pairwise_append.mpr ⟨h.ordered, List.pairwise_singleton _ _, fun a ha b hb => by
    rw [List.mem_singleton.mp hb]
    cases a with
    | armed u => trivial
    | cleared handle => exact fun heq => (h.gone handle ha).2 timer hmem heq.symm
    | fired handle due now =>
      obtain ⟨hle, hpast, -⟩ := h.fired handle due now ha
      exact (hle.trans hpast).trans hdue.ge⟩
  fired handle due now hfired := by
    rcases List.mem_append.mp hfired with hfired | hfired
    · obtain ⟨hle, hpast, htarget, u, hu, heq⟩ := h.fired handle due now hfired
      exact ⟨hle, hpast.trans hnow, htarget, u, hu.mono, heq⟩
    · cases List.mem_singleton.mp hfired
      obtain ⟨u, hu, heq⟩ := h.known timer hmem
      exact ⟨hdue.le, hnow, hdue ▸ h.place.le hms h.inv, u, hu.mono, heq⟩
  given u hu := (h.given u (hu.snoc nofun)).trans_le hseq
  known u hu := by
    have hold : ∃ v ∈ c'.pending, v.handle = u.handle := by
      rcases (hpending u).mp hu with ⟨hu, -⟩ | ⟨p, -, rfl⟩
      · exact ⟨u, hu, rfl⟩
      · exact ⟨timer, hmem, rfl⟩
    obtain ⟨v, hv, hsame⟩ := hold
    obtain ⟨w, hw, heq⟩ := h.known v hv
    exact ⟨w, hw.mono, heq.trans hsame⟩
  gone handle hcleared := by
    obtain ⟨hlt, hgone⟩ := h.gone handle ((List.mem_append.mp hcleared).resolve_right (by simp))
    refine ⟨hlt.trans_le hseq, fun u hu => ?_⟩
    rcases (hpending u).mp hu with ⟨hu, -⟩ | ⟨p, -, rfl⟩
    · exact hgone u hu
    · exact hgone timer hmem
  exact u hu huncleared := by
    obtain ⟨k, hdues, hwaits⟩ := h.exact u (hu.snoc nofun) fun hcleared => huncleared (List.mem_append_left _ hcleared)
    rw [duesOf_append, duesOf_fired]
    by_cases hsame : timer.handle = u.handle
    · obtain ⟨hnext, hwaits'⟩ := hwaits.fired h.inv hmem hsame hpending
      refine ⟨k + 1, ?_, hwaits'⟩
      rw [if_pos hsame, hdues, List.range_succ, List.filterMap_append]
      simp [hnext]
    · refine ⟨k, by rw [if_neg hsame, List.append_nil, hdues], hwaits.congr fun v hv => ?_⟩
      have hne : v.handle ≠ timer.handle := fun heq => hsame (heq.symm.trans hv)
      rw [hpending, and_iff_left hne]
      refine or_iff_left ?_
      rintro ⟨p, -, rfl⟩
      exact hne rfl

/-- Each step of a tick keeps what holds throughout. -/
theorem Ticking.step (h : Ticking c ms c' log) (hms : 0 ≤ ms) {e : ClockEvent} {log' : List ClockEntry} (hmay : Undisturbed c' e)
    (hstep : c'.step e = some (c'', log')) : Ticking c ms c'' (log ++ log') := by
  obtain ⟨hinv, heffect, hnow, hplace⟩ := h.inv.tickStep hms h.place hmay hstep
  cases heffect with
  | waits hpending hseq =>
    rw [List.append_nil]
    exact h.waits hinv hplace hnow hpending hseq
  | arms timer hpending hhandle hseq => exact h.arms hinv hplace hnow hpending hhandle hseq
  | clears handle hpending hgiven hseq => exact h.clears hinv hplace hnow hpending hgiven hseq
  | fires timer hmem hdue hpending hseq => exact h.fires hms hinv hplace hnow hmem hdue hpending hseq

end Parts

section Ending

variable {c c' : TestClock} {first ms target : ℚ} {log : List ClockEntry} {timer : ClockTimer}

/-- The firings a timer has left until a target. -/
def remaining (target : ℚ) (timer : ClockTimer) : ℕ :=
  if timer.due ≤ target then
    match timer.interval with
    | none => 1
    | some period => ⌊(target - timer.due) / period⌋₊ + 1
  else 0

/-- The waits left until a timer is fired or the loop ends. -/
def waitsLeft : Option ClockWait → ℕ
  | none => 0
  | some (.push _ _) => 1
  | some (.callback _) | some (.arrive _) => 3
  | some _ => 2

/-- What bounds the waits of a tick that has no more timers set. -/
def work (target : ℚ) (c : TestClock) : ℕ :=
  3 * (c.pending.map (remaining target)).sum + waitsLeft c.busy + if c.now < target then 2 else 0

theorem remaining_again {period : ℚ} (hdue : timer.due ≤ target) (hinterval : timer.interval = some period) (hpos : 0 < period)
    (seq : ℕ) : remaining target { timer with due := timer.due + period, seq := seq } + 1 ≤ remaining target timer := by
  have hfloor : ⌊(target - timer.due) / period⌋₊ + 1 = remaining target timer := by simp [remaining, hdue, hinterval]
  rw [← hfloor]
  unfold remaining
  split_ifs with hagain
  · have hdivision : (target - timer.due) / period = (target - (timer.due + period)) / period + 1 := by
      field_simp
      ring
    have hnonneg : 0 ≤ (target - (timer.due + period)) / period := div_nonneg (by linarith) hpos.le
    simp only [hinterval]
    rw [hdivision, Nat.floor_add_one hnonneg]
  · omega

/-- A timer fired has one firing less left. -/
theorem Inv.fire_remaining (h : Inv c) {rest : List ClockTimer} (hpending : c.pending = timer :: rest) (hdue : timer.due ≤ target) :
    ((TestClock.fire target timer { c with timers := rest }).1.pending.map (remaining target)).sum + 1 ≤
      (c.pending.map (remaining target)).sum := by
  rw [hpending, List.map_cons, List.sum_cons]
  cases hinterval : timer.interval with
  | none =>
    rw [fire_once target _ hinterval]
    have hone : remaining target timer = 1 := by simp [remaining, hdue, hinterval]
    rw [hone, Nat.add_comm]
    exact le_rfl
  | some period =>
    have hpos : 0 < period := h.period timer (hpending ▸ List.mem_cons_self) period hinterval
    rw [fire_interval target _ hinterval]
    have hless := remaining_again hdue hinterval hpos c.seq
    have hsum := (((insertTimer_perm { timer with due := timer.due + period, seq := c.seq } rest).map (remaining target)).sum_eq)
    rw [List.map_cons, List.sum_cons] at hsum
    have hgoal : ((insertTimer { timer with due := timer.due + period, seq := c.seq } rest).map (remaining target)).sum + 1 ≤
        remaining target timer + (rest.map (remaining target)).sum := by omega
    exact hgoal

theorem Inv.loop_work (h : Inv c) (hheld : held c.busy = []) (hwait : waitsLeft c.busy = 2) :
    work target (TestClock.loop target c).1 + 1 ≤ work target c := by
  have hpending : c.pending = c.timers := by rw [pending, hheld, List.nil_append]
  have harrive : work target (TestClock.arrive target c) + 1 ≤ work target c := by
    unfold TestClock.arrive
    split_ifs with hnow
    · have hsame : ({ c with now := target, busy := some (.arrive target) } : TestClock).pending = c.pending := hpending.symm
      simp only [work, hsame, hwait, lt_irrefl, hnow, if_true, if_false]
      simp only [waitsLeft]
      omega
    · have hsame : ({ c with busy := none } : TestClock).pending = c.pending := hpending.symm
      simp only [work, hsame, hwait, hnow, if_false]
      simp only [waitsLeft]
      omega
  unfold TestClock.loop
  split
  · exact harrive
  · rename_i timer timers hcons
    rw [hcons] at hpending
    split_ifs with hdue hnow
    · have hsame : ({ c with timers, now := timer.due, busy := some (.push target timer) } : TestClock).pending = c.pending :=
        hpending.symm
      have hlater : (if timer.due < target then 2 else 0) ≤ if c.now < target then 2 else 0 := by
        split_ifs with htimer hclock
        · exact le_rfl
        · exact absurd (hnow.trans htimer) hclock
        · exact Nat.zero_le _
        · exact le_rfl
      simp only [work, hsame, hwait]
      simp only [waitsLeft]
      omega
    · have hless := h.fire_remaining hpending hdue
      obtain ⟨hsame, hbusy⟩ := fire_fields target timer { c with timers }
      have hsame' : (TestClock.fire target timer { c with timers }).1.now = c.now := hsame
      simp only [work, hbusy, hsame', hwait]
      simp only [waitsLeft]
      omega
    · exact harrive

theorem settle_work (hheld : held c.busy = []) (hwait : waitsLeft c.busy = 3) :
    work target { c with busy := some (.settle target) } + 1 ≤ work target c := by
  have hpending : ({ c with busy := some (.settle target) } : TestClock).pending = c.pending := by rw [pending, pending, hheld]; rfl
  unfold work
  rw [hpending, hwait]
  change 3 * _ + 2 + (if c.now < target then 2 else 0) + 1 ≤ _
  omega

/-- What goes on leaves less to wait for. -/
theorem Inv.goOn_work (h : Inv c) (hat : At first ms c) {wait : ClockWait} (hbusy : c.busy = some wait) :
    work (first + ms) (c.goOn wait).1 + 1 ≤ work (first + ms) c := by
  rcases hat.wait hbusy with ⟨rfl, rfl⟩ | ⟨htarget, ⟨timer, rfl⟩ | rfl | rfl | rfl⟩
  · exact h.loop_work (by rw [hbusy]; rfl) (by rw [hbusy]; rfl)
  · have hpending : c.pending = timer :: c.timers := by rw [pending, hbusy]; rfl
    have hdue : timer.due ≤ first + ms := h.inHand _ _ hbusy ▸ h.within _ htarget
    have hless : ((TestClock.fire (first + ms) timer c).1.pending.map (remaining (first + ms))).sum + 1 ≤
        (c.pending.map (remaining (first + ms))).sum := h.fire_remaining hpending hdue
    obtain ⟨hsame, hcallback⟩ := fire_fields (first + ms) timer c
    simp only [work, TestClock.goOn, hcallback, hsame, hbusy]
    simp only [waitsLeft]
    omega
  · exact settle_work (by rw [hbusy]; rfl) (by rw [hbusy]; rfl)
  · exact settle_work (by rw [hbusy]; rfl) (by rw [hbusy]; rfl)
  · exact h.loop_work (by rw [hbusy]; rfl) (by rw [hbusy]; rfl)

/-- A call that sets a timer. -/
def Arms (e : ClockEvent) : Prop := ∃ ms, e = .setTimeout ms ∨ e = .setInterval ms

theorem Inv.step_work (h : Inv c) (hat : At first ms c) {e : ClockEvent} (hmay : Undisturbed c e) (harms : ¬ Arms e)
    (hstep : c.step e = some (c', log)) : work (first + ms) c' + [e].count .goesOn ≤ work (first + ms) c := by
  obtain ⟨hbusy, hthrows, -⟩ := hmay
  obtain ⟨wait, hwait⟩ := Option.ne_none_iff_exists'.mp hbusy
  cases e with
  | setTimeout ms' => exact absurd ⟨ms', .inl rfl⟩ harms
  | setInterval ms' => exact absurd ⟨ms', .inr rfl⟩ harms
  | clear handle =>
    simp only [TestClock.step, Option.ite_none_right_eq_some, Option.some.injEq] at hstep
    obtain ⟨-, heq⟩ := hstep
    cases heq
    have hsub : (c.clearTimeout handle).1.pending.Sublist c.pending := List.eraseP_sublist.append_left _
    have hsum : ((c.clearTimeout handle).1.pending.map (remaining (first + ms))).sum ≤ (c.pending.map (remaining (first + ms))).sum :=
      (hsub.map _).sum_le_sum fun _ _ => Nat.zero_le _
    unfold work
    have hless := Nat.mul_le_mul_left 3 hsum
    have hcount : [ClockEvent.clear handle].count .goesOn = 0 := rfl
    rw [hcount]
    exact Nat.add_le_add_right (Nat.add_le_add_right hless _) _
  | setTime t =>
    simp only [TestClock.step, hwait, Option.isSome_some, if_true, Option.some.injEq, Prod.mk.injEq] at hstep
    rw [hstep.1]
    exact le_rfl
  | tick ms' =>
    simp only [TestClock.step, hwait, Option.isSome_some, if_true, Option.some.injEq, Prod.mk.injEq] at hstep
    rw [hstep.1]
    exact le_rfl
  | goesOn =>
    simp only [TestClock.step, hwait, Option.map_some, Option.some.injEq] at hstep
    obtain rfl : (c.goOn wait).1 = c' := congrArg Prod.fst hstep
    exact h.goOn_work hat hwait
  | throws => exact absurd rfl hthrows

/-- A tick that has no more timers set waits no more often than its work. -/
theorem Run.work (hinv : Inv c) (hms : 0 ≤ ms) (hat : At first ms c) {events : List ClockEvent}
    (hrun : Run Undisturbed c events c' log) (harms : ∀ e ∈ events, ¬ Arms e) :
    At first ms c' ∧ TestClock.work (first + ms) c' + events.count .goesOn ≤ TestClock.work (first + ms) c := by
  induction hrun with
  | nil => exact ⟨hat, le_rfl⟩
  | snoc hbefore hmay hstep ih =>
    obtain ⟨hat', hle⟩ := ih fun e he => harms e (List.mem_append_left _ he)
    have hinv' := hbefore.inv hinv
    have hless := hinv'.step_work hat' hmay (harms _ (List.mem_append_right _ (List.mem_singleton_self _))) hstep
    refine ⟨(hinv'.tickStep hms hat' hmay hstep).2.2.2, ?_⟩
    rw [List.count_append]
    omega

end Ending

end TestClock

end PgBoss
