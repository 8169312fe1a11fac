import PgBoss.Clock.TestClock

/-!
# What a tick fires

The timers that a clock still has to fire are sorted by due time, and none is overdue: a jump moves what it passes. A
tick takes them from the front, so at each moment it fired a beginning of each timer's due times, and at its end all
that its target reaches.
-/

namespace PgBoss

section Lists

variable {timer : ClockTimer} {timers : List ClockTimer}

theorem insertTimer_perm (timer : ClockTimer) (timers : List ClockTimer) :
    (insertTimer timer timers).Perm (timer :: timers) := by
  unfold insertTimer
  refine List.perm_middle.trans (List.Perm.cons timer ?_)
  rw [List.rdropWhile_append_rtakeWhile]

theorem mem_insertTimer {u : ClockTimer} : u ∈ insertTimer timer timers ↔ u = timer ∨ u ∈ timers := by
  rw [(insertTimer_perm timer timers).mem_iff, List.mem_cons]

/-- The scan from the end stops behind the timers that are due no later. -/
theorem sorted_insertTimer (h : timers.Pairwise fun a b => a.due ≤ b.due) :
    (insertTimer timer timers).Pairwise fun a b => a.due ≤ b.due := by
  have hsplit : timers.rdropWhile timer.isAfter ++ timers.rtakeWhile timer.isAfter = timers :=
    List.rdropWhile_append_rtakeWhile
  rw [← hsplit] at h
  obtain ⟨hbefore, hbehind, hcross⟩ := List.pairwise_append.mp h
  have hlater : ∀ u ∈ timers.rtakeWhile timer.isAfter, timer.due ≤ u.due := by
    intro u hu
    have hafter := List.mem_rtakeWhile_imp hu
    simp only [ClockTimer.isAfter, Bool.or_eq_true, decide_eq_true_eq] at hafter
    rcases hafter with hlt | ⟨heq, -⟩
    · exact hlt.le
    · exact heq.ge
  have hearlier : ∀ u ∈ timers.rdropWhile timer.isAfter, u.due ≤ timer.due := by
    intro u hu
    have hne : timers.rdropWhile timer.isAfter ≠ [] := List.ne_nil_of_mem hu
    have hlast : ¬ timer.isAfter ((timers.rdropWhile timer.isAfter).getLast hne) = true :=
      List.rdropWhile_last_not _ _ hne
    have hle : ((timers.rdropWhile timer.isAfter).getLast hne).due ≤ timer.due := by
      simp only [ClockTimer.isAfter, Bool.or_eq_true, decide_eq_true_eq, not_or, not_lt] at hlast
      exact hlast.1
    rw [← List.dropLast_append_getLast hne] at hu hbefore
    rcases List.mem_append.mp hu with hu | hu
    · exact ((List.pairwise_append.mp hbefore).2.2 u hu _ (List.mem_singleton_self _)).trans hle
    · rwa [List.mem_singleton.mp hu]
  refine List.pairwise_append.mpr ⟨hbefore, List.pairwise_cons.mpr ⟨hlater, hbehind⟩, fun u hu v hv => ?_⟩
  rcases List.mem_cons.mp hv with rfl | hv
  · exact hearlier u hu
  · exact hcross u hu v hv

theorem moveOverdue_eq_map (next : ℚ) (h : timers.Pairwise fun a b => a.due ≤ b.due) :
    moveOverdue next timers = timers.map fun timer => { timer with due := max timer.due next } := by
  induction timers with
  | nil => rfl
  | cons timer timers ih =>
    obtain ⟨hle, hrest⟩ := List.pairwise_cons.mp h
    unfold moveOverdue
    split_ifs with hdue
    · have hsame : ∀ u ∈ timer :: timers, { u with due := max u.due next } = u := by
        intro u hu
        have hnext : next ≤ u.due := by
          rcases List.mem_cons.mp hu with rfl | hu
          · exact hdue
          · exact hdue.trans (hle u hu)
        rw [max_eq_left hnext]
      exact ((List.map_congr_left hsame).trans (List.map_id _)).symm
    · rw [List.map_cons, ih hrest, max_eq_right (not_le.mp hdue).le]

/-- The first timer of a handle is the only one. -/
theorem mem_eraseP_handle {handle : ℕ} (h : (timers.map ClockTimer.handle).Nodup) (u : ClockTimer) :
    u ∈ timers.eraseP (fun timer => timer.handle = handle) ↔ u ∈ timers ∧ u.handle ≠ handle := by
  induction timers with
  | nil => simp
  | cons timer timers ih =>
    obtain ⟨hnew, hrest⟩ := List.nodup_cons.mp h
    by_cases heq : timer.handle = handle
    · rw [List.eraseP_cons_of_pos (by simpa using heq)]
      refine ⟨fun hu => ⟨List.mem_cons_of_mem _ hu, fun hsame => ?_⟩, fun ⟨hu, hne⟩ => ?_⟩
      · exact hnew (heq.trans hsame.symm ▸ List.mem_map_of_mem hu)
      · exact (List.mem_cons.mp hu).resolve_left fun hu => hne (hu ▸ heq)
    · rw [List.eraseP_cons_of_neg (by simpa using heq), List.mem_cons, List.mem_cons, ih hrest]
      refine ⟨?_, ?_⟩
      · rintro (rfl | ⟨hu, hne⟩)
        · exact ⟨.inl rfl, heq⟩
        · exact ⟨.inr hu, hne⟩
      · rintro ⟨rfl | hu, hne⟩
        · exact .inl rfl
        · exact .inr ⟨hu, hne⟩

end Lists

namespace TestClock

/-- The timer a tick took from the list and has not fired. -/
def held : Option ClockWait → List ClockTimer
  | some (.push _ timer) => [timer]
  | _ => []

/-- The timers still to fire. -/
def pending (c : TestClock) : List ClockTimer := held c.busy ++ c.timers

/-- The target of the tick in progress, once it has one. -/
def target (c : TestClock) : Option ℚ :=
  match c.busy with
  | some (.push target _) | some (.callback target) | some (.arrive target) | some (.settle target) => some target
  | _ => none

/-- What holds throughout: the pending timers are sorted, not overdue and told apart by their handles, and a tick has
not passed its target. -/
structure Inv (c : TestClock) : Prop where
  sorted : c.pending.Pairwise fun a b => a.due ≤ b.due
  ahead : ∀ timer ∈ c.pending, c.now ≤ timer.due
  given : ∀ timer ∈ c.pending, timer.handle < c.seq
  unique : (c.pending.map ClockTimer.handle).Nodup
  period : ∀ timer ∈ c.pending, ∀ p, timer.interval = some p → 0 < p
  inHand : ∀ target timer, c.busy = some (.push target timer) → timer.due = c.now
  within : ∀ target, c.target = some target → c.now ≤ target

theorem inv_new (start : ℚ) : Inv { now := start } := by
  refine ⟨List.Pairwise.nil, ?_, ?_, List.nodup_nil, ?_, ?_, ?_⟩ <;> simp [pending, held, target]

section Steps

variable {c c' : TestClock} {log : List ClockEntry}

theorem Inv.due_of_held (h : Inv c) {timer : ClockTimer} (hheld : timer ∈ held c.busy) : timer.due = c.now := by
  unfold held at hheld
  split at hheld
  · rename_i target other hbusy
    rw [List.mem_singleton.mp hheld]
    exact h.inHand target other hbusy
  · cases hheld

/-- A timer more keeps the invariant, where it is not overdue and its handle is no other's. -/
theorem Inv.insert (h : Inv c) {timer : ClockTimer} (hdue : c.now ≤ timer.due) (hgiven : timer.handle ≤ c.seq)
    (hnew : ∀ u ∈ c.pending, u.handle ≠ timer.handle) (hperiod : ∀ p, timer.interval = some p → 0 < p) :
    Inv { c with timers := insertTimer timer c.timers, seq := c.seq + 1 } ∧
      ({ c with timers := insertTimer timer c.timers, seq := c.seq + 1 } : TestClock).pending.Perm (timer :: c.pending) := by
  have hpending : ({ c with timers := insertTimer timer c.timers, seq := c.seq + 1 } : TestClock).pending.Perm
      (timer :: c.pending) := ((insertTimer_perm timer c.timers).append_left _).trans List.perm_middle
  have hmem : ∀ u, u ∈ ({ c with timers := insertTimer timer c.timers, seq := c.seq + 1 } : TestClock).pending ↔
      u = timer ∨ u ∈ c.pending := fun u => hpending.mem_iff.trans List.mem_cons
  refine ⟨⟨?_, fun u hu => ?_, fun u hu => ?_, ?_, fun u hu => ?_, h.inHand, h.within⟩, hpending⟩
  · obtain ⟨hheld, hlist, hcross⟩ := List.pairwise_append.mp h.sorted
    refine List.pairwise_append.mpr ⟨hheld, sorted_insertTimer hlist, fun u hu v hv => ?_⟩
    rcases mem_insertTimer.mp hv with rfl | hv
    · rw [h.due_of_held hu]
      exact hdue
    · exact hcross u hu v hv
  · rcases (hmem u).mp hu with rfl | hu
    · exact hdue
    · exact h.ahead u hu
  · rcases (hmem u).mp hu with rfl | hu
    · exact Nat.lt_succ_of_le hgiven
    · exact (h.given u hu).trans (Nat.lt_succ_self _)
  · rw [(hpending.map _).nodup_iff, List.map_cons, List.nodup_cons]
    refine ⟨fun hin => ?_, h.unique⟩
    obtain ⟨u, hu, heq⟩ := List.mem_map.mp hin
    exact hnew u hu heq
  · rcases (hmem u).mp hu with rfl | hu
    · exact hperiod
    · exact h.period u hu

/-- Fewer timers keep it. -/
theorem Inv.sublist (h : Inv c) {timers : List ClockTimer} (hsub : timers.Sublist c.timers) : Inv { c with timers } := by
  have hpending : ({ c with timers } : TestClock).pending.Sublist c.pending := hsub.append_left _
  exact ⟨h.sorted.sublist hpending, fun u hu => h.ahead u (hpending.subset hu), fun u hu => h.given u (hpending.subset hu),
    h.unique.sublist (hpending.map _), fun u hu => h.period u (hpending.subset hu), h.inHand, h.within⟩

/-- What a step of a tick does to the pending timers. -/
inductive Effect (c c' : TestClock) : List ClockEntry → Prop
  | waits (hpending : c'.pending = c.pending) (hseq : c'.seq = c.seq) : Effect c c' []
  | arms (timer : ClockTimer) (hpending : ∀ u, u ∈ c'.pending ↔ u = timer ∨ u ∈ c.pending) (hhandle : timer.handle = c.seq)
      (hseq : c'.seq = c.seq + 1) : Effect c c' [.armed timer]
  | clears (handle : ℕ) (hpending : ∀ u, u ∈ c'.pending ↔ u ∈ c.pending ∧ u.handle ≠ handle) (hgiven : handle < c.seq)
      (hseq : c'.seq = c.seq) : Effect c c' [.cleared handle]
  | fires (timer : ClockTimer) (hmem : timer ∈ c.pending) (hdue : timer.due = c.now)
      (hpending : ∀ u, u ∈ c'.pending ↔ u ∈ c.pending ∧ u.handle ≠ timer.handle ∨
        ∃ p, timer.interval = some p ∧ u = { timer with due := timer.due + p, seq := c.seq })
      (hseq : c.seq ≤ c'.seq) : Effect c c' [.fired timer.handle timer.due c.now]

theorem Inv.schedule (h : Inv c) (ms : ℚ) (interval : Option ℚ) (hinterval : ∀ p, interval = some p → 0 < p) :
    Inv (c.schedule ms interval).1 ∧ Effect c (c.schedule ms interval).1 (c.schedule ms interval).2 := by
  let timer : ClockTimer := { handle := c.seq, due := c.now + max ms 0, seq := c.seq, interval }
  have hdue : c.now ≤ timer.due := le_add_of_nonneg_right (le_max_right ms 0)
  have hnew : ∀ u ∈ c.pending, u.handle ≠ timer.handle := fun u hu => (h.given u hu).ne
  obtain ⟨hinv, hpending⟩ := h.insert hdue le_rfl hnew hinterval
  exact ⟨hinv, .arms timer (fun u => hpending.mem_iff.trans List.mem_cons) rfl rfl⟩

theorem Inv.clear (h : Inv c) {handle : ℕ} (hgiven : handle < c.seq) (hheld : ∀ timer ∈ held c.busy, timer.handle ≠ handle) :
    Inv (c.clearTimeout handle).1 ∧ Effect c (c.clearTimeout handle).1 [.cleared handle] := by
  refine ⟨h.sublist List.eraseP_sublist, .clears handle (fun u => ?_) hgiven rfl⟩
  have hunique : (c.timers.map ClockTimer.handle).Nodup :=
    h.unique.sublist ((List.sublist_append_right (held c.busy) c.timers).map _)
  have hlist : u ∈ (c.clearTimeout handle).1.timers ↔ u ∈ c.timers ∧ u.handle ≠ handle := mem_eraseP_handle hunique u
  unfold pending
  rw [List.mem_append, List.mem_append, hlist, or_and_right]
  exact or_congr_left ⟨fun hu => ⟨hu, hheld u hu⟩, And.left⟩

theorem fire_once (target : ℚ) {timer : ClockTimer} (c : TestClock) (h : timer.interval = none) :
    fire target timer c = ({ c with busy := some (.callback target) }, [.fired timer.handle timer.due c.now]) := by
  simp only [TestClock.fire, h]

theorem fire_interval (target : ℚ) {timer : ClockTimer} {period : ℚ} (c : TestClock) (h : timer.interval = some period) :
    fire target timer c = ({ c with
      timers := insertTimer { timer with due := timer.due + period, seq := c.seq } c.timers
      seq := c.seq + 1
      busy := some (.callback target) }, [.fired timer.handle timer.due c.now]) := by
  obtain ⟨handle, due, seq, interval⟩ := timer
  obtain rfl : interval = some period := h
  rfl

theorem fire_fields (target : ℚ) (timer : ClockTimer) (c : TestClock) :
    (fire target timer c).1.now = c.now ∧ (fire target timer c).1.busy = some (.callback target) := by
  cases hinterval : timer.interval with
  | none => rw [fire_once target c hinterval]; exact ⟨rfl, rfl⟩
  | some period => rw [fire_interval target c hinterval]; exact ⟨rfl, rfl⟩

/-- The first of the pending timers, due now, is fired. -/
theorem Inv.fire (h : Inv c) {timer : ClockTimer} {rest : List ClockTimer} (hpending : c.pending = timer :: rest)
    (hdue : timer.due = c.now) {target : ℚ} (htarget : timer.due ≤ target) :
    Inv (fire target timer { c with timers := rest }).1 ∧
      Effect c (fire target timer { c with timers := rest }).1 (fire target timer { c with timers := rest }).2 := by
  have hunique := h.unique
  rw [hpending, List.map_cons, List.nodup_cons] at hunique
  have hother : ∀ u ∈ rest, u.handle ≠ timer.handle := fun u hu heq => hunique.1 (heq ▸ List.mem_map_of_mem hu)
  have hmem : ∀ {u}, u ∈ rest → u ∈ c.pending := fun hu => hpending ▸ List.mem_cons_of_mem _ hu
  have htimer : timer ∈ c.pending := hpending ▸ List.mem_cons_self
  have hsorted := h.sorted
  rw [hpending] at hsorted
  have hrest : Inv { c with timers := rest, busy := some (.callback target) } := by
    refine ⟨hsorted.of_cons, fun u hu => h.ahead u (hmem hu), fun u hu => h.given u (hmem hu), hunique.2,
      fun u hu => h.period u (hmem hu), nofun, fun target' htarget' => ?_⟩
    cases htarget'
    exact hdue ▸ htarget
  have hkept : ∀ u, u ∈ rest ↔ u ∈ c.pending ∧ u.handle ≠ timer.handle := by
    intro u
    rw [hpending, List.mem_cons]
    refine ⟨fun hu => ⟨.inr hu, hother u hu⟩, fun ⟨hu, hne⟩ => hu.resolve_left fun heq => hne (heq ▸ rfl)⟩
  cases hinterval : timer.interval with
  | none =>
    rw [fire_once target _ hinterval]
    exact ⟨hrest, .fires timer htimer hdue (fun u => (hkept u).trans (by simp [hinterval])) le_rfl⟩
  | some period =>
    have hpos : 0 < period := h.period timer htimer period hinterval
    let again : ClockTimer := { timer with due := timer.due + period, seq := c.seq }
    have hlater : c.now ≤ again.due := hdue ▸ le_add_of_nonneg_right hpos.le
    have hnew : ∀ u ∈ rest, u.handle ≠ again.handle := hother
    obtain ⟨hinv, hagain⟩ := hrest.insert hlater (h.given timer htimer).le hnew fun p hp => h.period timer htimer p hp
    rw [fire_interval target _ hinterval]
    refine ⟨hinv, .fires timer htimer hdue (fun u => ?_) (Nat.le_succ _)⟩
    refine (hagain.mem_iff.trans List.mem_cons).trans (or_comm.trans (or_congr (hkept u) ?_))
    simp [hinterval, again]

/-- Where a tick of `ms` that began at `first` is: settling, under way to its target, or done, with nothing due left. -/
def At (first ms : ℚ) (c : TestClock) : Prop :=
  c.busy = some (.start ms) ∧ c.now = first ∨ c.target = some (first + ms) ∨
    c.busy = none ∧ c.now = first + ms ∧ ∀ timer ∈ c.pending, first + ms < timer.due

/-- What a step of a tick keeps, and what it does. -/
def Advances (first ms : ℚ) (c : TestClock) (result : TestClock × List ClockEntry) : Prop :=
  Inv result.1 ∧ Effect c result.1 result.2 ∧ c.now ≤ result.1.now ∧ At first ms result.1

theorem Inv.arrive (h : Inv c) {first ms : ℚ} (hheld : held c.busy = []) (hwithin : c.now ≤ first + ms)
    (hlater : ∀ timer ∈ c.pending, first + ms < timer.due) : Advances first ms c (arrive (first + ms) c, []) := by
  have hpending : c.pending = c.timers := by rw [pending, hheld, List.nil_append]
  unfold Advances TestClock.arrive
  split_ifs with hnow
  · refine ⟨⟨?_, fun u hu => ?_, ?_, ?_, ?_, nofun, fun target htarget => ?_⟩, .waits hpending.symm rfl, hnow.le, .inr (.inl rfl)⟩
    · exact hpending ▸ h.sorted
    · exact (hlater u (hpending ▸ hu)).le
    · exact hpending ▸ h.given
    · exact hpending ▸ h.unique
    · exact hpending ▸ h.period
    · cases htarget
      exact le_rfl
  · refine ⟨⟨hpending ▸ h.sorted, hpending ▸ h.ahead, hpending ▸ h.given, hpending ▸ h.unique, hpending ▸ h.period, nofun, nofun⟩,
      .waits hpending.symm rfl, le_rfl, .inr (.inr ⟨rfl, le_antisymm hwithin (not_lt.mp hnow), ?_⟩)⟩
    exact hpending ▸ hlater

theorem Inv.loop (h : Inv c) {first ms : ℚ} (hheld : held c.busy = []) (hwithin : c.now ≤ first + ms) :
    Advances first ms c (loop (first + ms) c) := by
  have hpending : c.pending = c.timers := by rw [pending, hheld, List.nil_append]
  unfold TestClock.loop
  split
  · rename_i hnil
    refine h.arrive hheld hwithin fun u hu => ?_
    rw [hpending, hnil] at hu
    cases hu
  · rename_i timer timers hcons
    rw [hcons] at hpending
    have hsorted := h.sorted
    have hunique := h.unique
    rw [hpending, List.pairwise_cons] at hsorted
    rw [hpending] at hunique
    have htimer : timer ∈ c.pending := hpending ▸ List.mem_cons_self
    split_ifs with hdue hnow
    · refine ⟨⟨?_, fun u hu => ?_, ?_, ?_, ?_, fun target other hbusy => ?_, fun target htarget => ?_⟩, .waits hpending.symm rfl,
        hnow.le, .inr (.inl rfl)⟩
      · exact List.pairwise_cons.mpr hsorted
      · rcases List.mem_cons.mp hu with rfl | hu
        · exact le_rfl
        · exact hsorted.1 u hu
      · exact fun u hu => h.given u (hpending ▸ hu)
      · exact hunique
      · exact fun u hu => h.period u (hpending ▸ hu)
      · cases hbusy
        rfl
      · cases htarget
        exact hdue
    · have hequal : timer.due = c.now := le_antisymm (not_lt.mp hnow) (h.ahead timer htimer)
      obtain ⟨hinv, heffect⟩ := h.fire hpending hequal hdue
      obtain ⟨hsame, hbusy⟩ := fire_fields (first + ms) timer { c with timers }
      exact ⟨hinv, heffect, hsame.ge, .inr (.inl (by rw [target, hbusy]))⟩
    · refine h.arrive hheld hwithin fun u hu => ?_
      rw [hpending] at hu
      rcases List.mem_cons.mp hu with rfl | hu
      · exact not_le.mp hdue
      · exact (not_le.mp hdue).trans_le (hsorted.1 u hu)

/-- A step of a tick in progress, which nothing throws out of; and no clear names the timer in hand. -/
def Undisturbed (c : TestClock) (e : ClockEvent) : Prop :=
  c.busy ≠ none ∧ e ≠ .throws ∧ ∀ timer ∈ held c.busy, e ≠ .clear timer.handle

/-- Settling after a callback or at the target. -/
theorem Inv.settle (h : Inv c) {first ms : ℚ} (hheld : held c.busy = []) (htarget : c.target = some (first + ms)) :
    Advances first ms c ({ c with busy := some (.settle (first + ms)) }, []) := by
  have hpending : c.pending = c.timers := by rw [pending, hheld, List.nil_append]
  refine ⟨⟨hpending ▸ h.sorted, hpending ▸ h.ahead, hpending ▸ h.given, hpending ▸ h.unique, hpending ▸ h.period, nofun,
    fun target hsettle => ?_⟩, .waits hpending.symm rfl, le_rfl, .inr (.inl rfl)⟩
  cases hsettle
  exact h.within _ htarget

/-- What a tick in progress waits for. -/
theorem At.wait {first ms : ℚ} (hat : At first ms c) {wait : ClockWait} (hbusy : c.busy = some wait) :
    wait = .start ms ∧ c.now = first ∨ c.target = some (first + ms) ∧ ((∃ timer, wait = .push (first + ms) timer) ∨
      wait = .callback (first + ms) ∨ wait = .arrive (first + ms) ∨ wait = .settle (first + ms)) := by
  rcases hat with ⟨hstart, hnow⟩ | htarget | ⟨hdone, -⟩
  · exact .inl ⟨Option.some.inj (hbusy.symm.trans hstart), hnow⟩
  · refine .inr ⟨htarget, ?_⟩
    rw [target, hbusy] at htarget
    cases wait <;> simp at htarget <;> simp [htarget]
  · rw [hbusy] at hdone
    cases hdone

theorem Inv.goOn (h : Inv c) {first ms : ℚ} (hms : 0 ≤ ms) (hat : At first ms c) {wait : ClockWait} (hbusy : c.busy = some wait) :
    Advances first ms c (c.goOn wait) := by
  rcases hat.wait hbusy with ⟨rfl, rfl⟩ | ⟨htarget, ⟨timer, rfl⟩ | rfl | rfl | rfl⟩
  · exact h.loop (by rw [hbusy]; rfl) (le_add_of_nonneg_right hms)
  · have hdue := h.inHand _ _ hbusy
    have hpending : c.pending = timer :: c.timers := by rw [pending, hbusy]; rfl
    obtain ⟨hinv, heffect⟩ := h.fire hpending hdue (hdue ▸ h.within _ htarget)
    obtain ⟨hsame, hcallback⟩ := fire_fields (first + ms) timer c
    exact ⟨hinv, heffect, hsame.ge, .inr (.inl (by rw [TestClock.goOn, TestClock.target, hcallback]))⟩
  · exact h.settle (by rw [hbusy]; rfl) htarget
  · exact h.settle (by rw [hbusy]; rfl) htarget
  · exact h.loop (by rw [hbusy]; rfl) (h.within _ htarget)

/-- A call at another place of the tick leaves it where it is. -/
theorem At.of_busy {first ms : ℚ} (hat : At first ms c) (hbusy : c.busy ≠ none) (hsame : c'.busy = c.busy) (hnow : c'.now = c.now) :
    At first ms c' := by
  rcases hat with ⟨hstart, hfirst⟩ | htarget | ⟨hdone, -⟩
  · exact .inl ⟨hsame.trans hstart, hnow.trans hfirst⟩
  · exact .inr (.inl (by rwa [target, hsame]))
  · exact absurd hdone hbusy

/-- The steps of a tick keep the invariant and have their effect, and `now` does not decrease. -/
theorem Inv.tickStep (h : Inv c) {first ms : ℚ} (hms : 0 ≤ ms) (hat : At first ms c) {e : ClockEvent} (hmay : Undisturbed c e)
    (hstep : c.step e = some (c', log)) : Advances first ms c (c', log) := by
  obtain ⟨hbusy, hthrows, hclear⟩ := hmay
  obtain ⟨wait, hwait⟩ := Option.ne_none_iff_exists'.mp hbusy
  cases e with
  | setTimeout ms' =>
    obtain ⟨hinv, heffect⟩ := h.schedule ms' none nofun
    cases hstep
    exact ⟨hinv, heffect, le_rfl, hat.of_busy hbusy rfl rfl⟩
  | setInterval ms' =>
    obtain ⟨hinv, heffect⟩ := h.schedule ms' (some (max ms' 1)) fun p hp => by
      cases hp
      exact zero_lt_one.trans_le (le_max_right _ _)
    cases hstep
    exact ⟨hinv, heffect, le_rfl, hat.of_busy hbusy rfl rfl⟩
  | clear handle =>
    simp only [TestClock.step, Option.ite_none_right_eq_some, Option.some.injEq] at hstep
    obtain ⟨hgiven, heq⟩ := hstep
    obtain ⟨hinv, heffect⟩ := h.clear hgiven fun timer htimer hsame => hclear timer htimer (by rw [hsame])
    cases heq
    exact ⟨hinv, heffect, le_rfl, hat.of_busy hbusy rfl rfl⟩
  | setTime t =>
    simp only [TestClock.step, hwait, Option.isSome_some, if_true, Option.some.injEq, Prod.mk.injEq] at hstep
    obtain ⟨rfl, rfl⟩ := hstep
    exact ⟨h, .waits rfl rfl, le_rfl, hat⟩
  | tick ms' =>
    simp only [TestClock.step, hwait, Option.isSome_some, if_true, Option.some.injEq, Prod.mk.injEq] at hstep
    obtain ⟨rfl, rfl⟩ := hstep
    exact ⟨h, .waits rfl rfl, le_rfl, hat⟩
  | goesOn =>
    simp only [TestClock.step, hwait, Option.map_some, Option.some.injEq] at hstep
    exact hstep ▸ h.goOn hms hat hwait
  | throws => exact absurd rfl hthrows

/-- A `tick` back in time fires nothing, and leaves the clock where it is. -/
theorem Inv.loop_back (h : Inv c) (hheld : held c.busy = []) {target : ℚ} (hback : target < c.now) :
    TestClock.loop target c = ({ c with busy := none }, []) := by
  have hpending : c.pending = c.timers := by rw [pending, hheld, List.nil_append]
  have hidle : TestClock.arrive target c = { c with busy := none } := by
    rw [TestClock.arrive, if_neg (not_lt.mpr hback.le)]
  unfold TestClock.loop
  split
  · rw [hidle]
  · rename_i timer timers hcons
    have hlater : target < timer.due := hback.trans_le (h.ahead timer (by rw [hpending, hcons]; exact List.mem_cons_self))
    rw [if_neg (not_le.mpr hlater), hidle]

/-- Where nothing is in hand, what is waited for makes no difference. -/
theorem Inv.busy (h : Inv c) {wait : Option ClockWait} (hheld : held wait = [])
    (htarget : ∀ target, ({ c with busy := wait } : TestClock).target = some target → c.now ≤ target) :
    Inv { c with busy := wait } := by
  have hpending : ({ c with busy := wait } : TestClock).pending = c.timers := by
    rw [pending]
    exact congrArg (· ++ c.timers) hheld
  have hsub : ({ c with busy := wait } : TestClock).pending.Sublist c.pending := by
    rw [hpending]
    exact List.sublist_append_right _ _
  refine ⟨h.sorted.sublist hsub, fun u hu => h.ahead u (hsub.subset hu), fun u hu => h.given u (hsub.subset hu),
    h.unique.sublist (hsub.map _), fun u hu => h.period u (hsub.subset hu), fun target timer hbusy => ?_, htarget⟩
  rw [show wait = some (.push target timer) from hbusy] at hheld
  cases hheld

/-- The timers that a jump passes move to its time, the others are later. -/
theorem Inv.jump (h : Inv c) {next : ℚ} (hbusy : c.busy = some (.jump next)) :
    (c.goOn (.jump next)).1.timers = c.timers.map (fun timer => { timer with due := max timer.due next }) ∧
      Inv (c.goOn (.jump next)).1 := by
  have hpending : c.pending = c.timers := by rw [pending, hbusy]; rfl
  have hmoved : moveOverdue next c.timers = c.timers.map (fun timer => { timer with due := max timer.due next }) :=
    moveOverdue_eq_map next (hpending ▸ h.sorted)
  have hmap : (c.goOn (.jump next)).1.pending = c.pending.map (fun timer => { timer with due := max timer.due next }) := by
    rw [hpending, ← hmoved]
    rfl
  refine ⟨hmoved, ⟨?_, ?_, ?_, ?_, ?_, nofun, nofun⟩⟩ <;> rw [hmap]
  · exact List.pairwise_map.mpr (h.sorted.imp fun hle => max_le_max_right next hle)
  · exact List.forall_mem_map.mpr fun u _ => le_max_right _ _
  · exact List.forall_mem_map.mpr h.given
  · rw [List.map_map]
    exact h.unique
  · exact List.forall_mem_map.mpr h.period

theorem Inv.step (h : Inv c) {e : ClockEvent} (hstep : c.step e = some (c', log)) : Inv c' := by
  cases e with
  | setTimeout ms =>
    cases hstep
    exact (h.schedule ms none nofun).1
  | setInterval ms =>
    cases hstep
    exact (h.schedule ms (some (max ms 1)) fun p hp => by cases hp; exact zero_lt_one.trans_le (le_max_right _ _)).1
  | clear handle =>
    simp only [TestClock.step, Option.ite_none_right_eq_some, Option.some.injEq] at hstep
    obtain ⟨-, heq⟩ := hstep
    cases heq
    exact h.sublist List.eraseP_sublist
  | setTime t =>
    simp only [TestClock.step, Option.some.injEq, Prod.mk.injEq] at hstep
    rw [← hstep.1]
    split_ifs
    · exact h
    · exact h.busy rfl nofun
  | tick ms =>
    simp only [TestClock.step, Option.some.injEq, Prod.mk.injEq] at hstep
    rw [← hstep.1]
    split_ifs
    · exact h
    · exact h.busy rfl nofun
  | throws =>
    simp only [TestClock.step, Option.ite_none_right_eq_some, Option.some.injEq, Prod.mk.injEq] at hstep
    rw [← hstep.2.1]
    exact h.busy rfl nofun
  | goesOn =>
    obtain ⟨wait, hwait, heq⟩ := Option.map_eq_some_iff.mp hstep
    obtain rfl : (c.goOn wait).1 = c' := congrArg Prod.fst heq
    cases htarget : c.target with
    | some target =>
      have hat : At target 0 c := .inr (.inl (by rw [htarget, add_zero]))
      exact (h.goOn le_rfl hat hwait).1
    | none =>
      cases wait with
      | jump next => exact (h.jump hwait).2
      | pushJump => exact h.busy rfl nofun
      | start ms =>
        rcases le_or_gt 0 ms with hms | hms
        · exact (h.goOn hms (.inl ⟨hwait, rfl⟩) hwait).1
        · rw [TestClock.goOn, h.loop_back (by rw [hwait]; rfl) (by linarith)]
          exact h.busy rfl nofun
      | _ => simp [target, hwait] at htarget

/-- Any step. -/
def any (_ : TestClock) (_ : ClockEvent) : Prop := True

theorem Run.inv {may : TestClock → ClockEvent → Prop} {events : List ClockEvent} (h : Inv c) (hrun : Run may c events c' log) :
    Inv c' := by
  induction hrun with
  | nil => exact h
  | snoc _ _ hstep ih => exact ih.step hstep

end Steps

end TestClock

end PgBoss
