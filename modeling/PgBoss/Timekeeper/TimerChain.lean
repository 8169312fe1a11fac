import PgBoss.Timekeeper.ClaimTimer

/-!
# The chain of a claim timer

`ClaimTimer` with the timeouts its clock holds for it and the passes that run, any number at once. What runs undisturbed
is one step: a call, the callback of a timeout, or the end of a pass. A timeout fires whenever it likes, and the clock
reads what it likes. What the timer did is kept in a log, the latest first.
-/

namespace PgBoss

/-- What a timer was told, the waits it began, and the passes it started. -/
inductive ChainEntry
  | started
  | stopped
  | armed (due : ℚ)
  | ran (now : ℚ)
  deriving DecidableEq

/-- A `ClaimTimer`, the pending timeouts of its clock, how many were set, and the passes that have not ended. -/
structure TimerChain where
  ms : ℚ
  handle : Option ℕ := none
  due : ℚ := 0
  stopped : Bool := true
  anchored : Bool := false
  now : ℚ
  pending : List ℕ := []
  issued : ℕ := 0
  passes : ℕ := 0
  log : List ChainEntry := []

namespace TimerChain

/-- `#disarm`. -/
def disarm (t : TimerChain) : TimerChain :=
  match t.handle with
  | none => t
  | some handle => { t with pending := t.pending.filter fun h => h ≠ handle, handle := none }

/-- `#wait`. -/
def wait (t : TimerChain) : TimerChain :=
  { t with handle := some t.issued, pending := t.issued :: t.pending, issued := t.issued + 1 }

/-- `#arm`. -/
def arm (ms : ℚ) (t : TimerChain) : TimerChain :=
  if t.stopped then t.disarm
  else wait { t.disarm with due := t.now + ms, log := .armed (t.now + ms) :: t.log }

/-- `start()`. -/
def start (t : TimerChain) : TimerChain :=
  let t := { t with log := .started :: t.log }
  if !t.stopped then t else arm t.ms { t with stopped := false }

/-- `stop()`. -/
def stop (t : TimerChain) : TimerChain := disarm { t with stopped := true, log := .stopped :: t.log }

/-- `anchor()`. -/
def anchor (ms : Option ℚ) (t : TimerChain) : TimerChain :=
  if t.stopped then t else arm (ms.getD t.ms) { t with anchored := true }

/-- `#run`, up to what the callback awaits. -/
def run (t : TimerChain) : TimerChain :=
  { t with handle := none, anchored := false, passes := t.passes + 1, log := .ran t.now :: t.log }

/-- `#run`, once the pass resolved or threw. -/
def settled (t : TimerChain) : TimerChain :=
  let t := { t with passes := t.passes - 1 }
  if !t.anchored then arm t.ms t else t

/-- The callback of a timeout, which is no longer pending. -/
def fired (handle : ℕ) (t : TimerChain) : TimerChain :=
  let t := { t with pending := t.pending.filter fun h => h ≠ handle }
  if 0 < t.due - t.now then t.wait else t.run

/-- What goes on around a timer. -/
inductive Step
  | start
  | stop
  | anchor (ms : Option ℚ)
  | fire (handle : ℕ)
  | settle (threw : Bool)
  | clock (now : ℚ)

/-- A step: a timeout fires only while it is pending, and only a pass that runs ends. -/
def step (t : TimerChain) : Step → Option TimerChain
  | .start => some t.start
  | .stop => some t.stop
  | .anchor ms => some (t.anchor ms)
  | .fire handle => if handle ∈ t.pending then some (t.fired handle) else none
  | .settle _ => if 0 < t.passes then some t.settled else none
  | .clock now => some { t with now := now }

def steps (t : TimerChain) : List Step → Option TimerChain
  | [] => some t
  | s :: rest => (t.step s).bind fun t => t.steps rest

/-- A timer as the attempts of a `Timekeeper` have it, who armed it at its due time. -/
def timer (t : TimerChain) : ClaimTimer := ⟨t.ms, if t.handle.isSome then some t.due else none, t.stopped, t.anchored⟩

section Timer

variable (t : TimerChain)

theorem timer_disarm : t.disarm.timer = t.timer.disarm := by
  obtain ⟨ms, handle, due, stopped, anchored⟩ := t
  cases handle <;> rfl

theorem timer_arm (ms : ℚ) : (t.arm ms).timer = ClaimTimer.arm t.now ms t.timer := by
  have hstopped : t.timer.stopped = t.stopped := rfl
  unfold arm ClaimTimer.arm
  rw [hstopped]
  split_ifs
  · exact timer_disarm t
  · unfold disarm
    cases t.handle <;> rfl

theorem timer_start : t.start.timer = ClaimTimer.start t.now t.timer := by
  have hstopped : t.timer.stopped = t.stopped := rfl
  simp only [start, ClaimTimer.start, hstopped]
  split_ifs
  · rfl
  · exact timer_arm _ _

theorem timer_stop : t.stop.timer = t.timer.stop := timer_disarm _

theorem timer_anchor (ms : Option ℚ) : (t.anchor ms).timer = ClaimTimer.anchor t.now ms t.timer := by
  have hstopped : t.timer.stopped = t.stopped := rfl
  simp only [anchor, ClaimTimer.anchor, hstopped]
  split_ifs
  · rfl
  · exact timer_arm _ _

theorem timer_run : t.run.timer = t.timer.fired := rfl

theorem timer_settled : t.settled.timer = ClaimTimer.settled t.now t.timer := by
  have hanchored : t.timer.anchored = t.anchored := rfl
  simp only [settled, ClaimTimer.settled, hanchored]
  split_ifs
  · exact timer_arm _ _
  · rfl

end Timer

/-- The due time of the last wait that began. -/
def lastArmed (log : List ChainEntry) : Option ℚ :=
  log.findSome? fun entry => match entry with
    | .armed due => some due
    | _ => none

/-- The last call was `start()`. -/
def startedIn (log : List ChainEntry) : Bool :=
  (log.findSome? fun entry => match entry with
    | .started => some true
    | .stopped => some false
    | _ => none).getD false

/-- Every pass was started at the due time of the last wait begun before it or later, and while the timer was started. -/
def Orderly (log : List ChainEntry) : Prop :=
  ∀ after now before, log = after ++ .ran now :: before →
    (∃ due, lastArmed before = some due ∧ due ≤ now) ∧ startedIn before = true

/-- The clock holds the timeout of the handle and no other; it is one of a started timer, set for its last wait. A
started timer without one has a pass running that did not anchor. -/
structure Sound (t : TimerChain) : Prop where
  pending : t.pending = t.handle.toList
  armed : t.handle.isSome = true → t.stopped = false ∧ lastArmed t.log = some t.due
  alive : t.stopped = false → t.handle.isSome = true ∨ (0 < t.passes ∧ t.anchored = false)
  called : startedIn t.log = !t.stopped
  orderly : Orderly t.log

section Log

variable {log : List ChainEntry} {entry : ChainEntry}

theorem Orderly.cons (h : Orderly log) (hentry : ∀ now, entry ≠ .ran now) : Orderly (entry :: log) := by
  intro after now before heq
  cases after with
  | nil => exact absurd (List.cons.inj heq).1 (hentry now)
  | cons e after => exact h after now before (List.cons.inj heq).2

theorem Orderly.ran {now due : ℚ} (h : Orderly log) (harmed : lastArmed log = some due) (hdue : due ≤ now)
    (hstarted : startedIn log = true) : Orderly (.ran now :: log) := by
  intro after now' before heq
  cases after with
  | nil =>
    obtain ⟨hnow, rfl⟩ := List.cons.inj heq
    cases hnow
    exact ⟨⟨due, harmed, hdue⟩, hstarted⟩
  | cons e after => exact h after now' before (List.cons.inj heq).2

end Log

section Kept

variable {t t' : TimerChain}

theorem disarm_pending (h : t.pending = t.handle.toList) : t.disarm.pending = [] ∧ t.disarm.handle = none := by
  unfold disarm
  cases hhandle : t.handle with
  | none => exact ⟨by rw [h, hhandle]; rfl, hhandle⟩
  | some handle =>
    rw [hhandle] at h
    exact ⟨by simp [h], rfl⟩

theorem disarm_frame (t : TimerChain) : t.disarm.stopped = t.stopped ∧ t.disarm.anchored = t.anchored ∧
    t.disarm.passes = t.passes ∧ t.disarm.log = t.log ∧ t.disarm.due = t.due := by
  unfold disarm
  cases t.handle <;> exact ⟨rfl, rfl, rfl, rfl, rfl⟩

/-- Arming leaves one timeout, or none if the timer is stopped, whatever there was before. -/
theorem sound_arm {ms : ℚ} (hpending : t.pending = t.handle.toList) (hcalled : startedIn t.log = !t.stopped)
    (horderly : Orderly t.log) : Sound (t.arm ms) := by
  obtain ⟨hnone, hhandle⟩ := disarm_pending hpending
  obtain ⟨hstopped, -, -, hlog, -⟩ := disarm_frame t
  unfold arm
  split_ifs with hstop
  · refine ⟨by rw [hnone, hhandle]; rfl, fun hsome => ?_, fun hlive => ?_, by rw [hlog, hstopped, hcalled], by rwa [hlog]⟩
    · rw [hhandle] at hsome
      cases hsome
    · rw [hstopped, hstop] at hlive
      cases hlive
  · have hstop' : t.stopped = false := by simpa using hstop
    refine ⟨?_, fun _ => ⟨hstopped.trans hstop', rfl⟩, fun _ => .inl rfl, ?_, horderly.cons nofun⟩
    · change t.disarm.issued :: t.disarm.pending = [t.disarm.issued]
      rw [hnone]
    · exact hcalled.trans (congrArg not hstopped).symm

theorem sound_start (h : Sound t) : Sound t.start := by
  have hcons : Orderly (.started :: t.log) := h.orderly.cons nofun
  simp only [start]
  split_ifs with hlive
  · exact { pending := h.pending, armed := h.armed, alive := h.alive, called := hlive.symm, orderly := hcons }
  · exact sound_arm h.pending rfl hcons

theorem sound_stop (h : Sound t) : Sound t.stop := by
  obtain ⟨hnone, hhandle⟩ := disarm_pending (t := { t with stopped := true, log := .stopped :: t.log }) h.pending
  obtain ⟨hstopped, -, -, hlog, -⟩ := disarm_frame { t with stopped := true, log := .stopped :: t.log }
  refine ⟨by rw [stop, hnone, hhandle]; rfl, fun hsome => ?_, fun hlive => ?_, by rw [stop, hlog, hstopped]; rfl, ?_⟩
  · rw [stop, hhandle] at hsome
    cases hsome
  · rw [stop, hstopped] at hlive
    cases hlive
  · rw [stop, hlog]
    exact h.orderly.cons nofun

theorem sound_anchor (h : Sound t) (ms : Option ℚ) : Sound (t.anchor ms) := by
  unfold anchor
  split_ifs
  · exact h
  · exact sound_arm h.pending h.called h.orderly

/-- The callback waits on for what is left, or starts a pass whose end will arm. -/
theorem sound_fired (h : Sound t) {handle : ℕ} (hfires : handle ∈ t.pending) : Sound (t.fired handle) := by
  rw [h.pending, Option.mem_toList] at hfires
  have hhandle : t.handle = some handle := hfires
  have hnone : t.pending.filter (fun h => h ≠ handle) = [] := by
    rw [h.pending, hhandle]
    simp
  obtain ⟨hlive, harmed⟩ := h.armed (by rw [hhandle]; rfl)
  simp only [fired]
  split_ifs with hearly
  · refine ⟨?_, fun _ => ⟨hlive, harmed⟩, fun _ => .inl rfl, h.called, h.orderly⟩
    change t.issued :: t.pending.filter (fun h => h ≠ handle) = [t.issued]
    rw [hnone]
  · have hdue : t.due ≤ t.now := sub_nonpos.mp (not_lt.mp hearly)
    have hstarted : startedIn t.log = true := by rw [h.called, hlive]; rfl
    exact ⟨hnone, nofun, fun _ => .inr ⟨Nat.succ_pos _, rfl⟩, h.called, h.orderly.ran harmed hdue hstarted⟩

/-- A pass that did not anchor arms as it ends, and behind one that did there is a timeout. -/
theorem sound_settled (h : Sound t) : Sound t.settled := by
  simp only [settled]
  split_ifs with hanchored
  · exact sound_arm h.pending h.called h.orderly
  · refine ⟨h.pending, h.armed, fun hlive => .inl ?_, h.called, h.orderly⟩
    rcases h.alive hlive with hsome | ⟨-, hnot⟩
    · exact hsome
    · exact absurd hnot (by simpa using hanchored)

theorem sound_step (h : Sound t) {s : Step} (hstep : t.step s = some t') : Sound t' := by
  cases s with
  | start =>
    cases hstep
    exact sound_start h
  | stop =>
    cases hstep
    exact sound_stop h
  | anchor ms =>
    cases hstep
    exact sound_anchor h ms
  | fire handle =>
    obtain ⟨hfires, heq⟩ := Option.ite_none_right_eq_some.mp hstep
    cases heq
    exact sound_fired h hfires
  | settle threw =>
    obtain ⟨-, heq⟩ := Option.ite_none_right_eq_some.mp hstep
    cases heq
    exact sound_settled h
  | clock now =>
    cases hstep
    exact ⟨h.pending, h.armed, h.alive, h.called, h.orderly⟩

theorem sound_steps (h : Sound t) {history : List Step} (hsteps : t.steps history = some t') : Sound t' := by
  induction history generalizing t with
  | nil =>
    cases hsteps
    exact h
  | cons s history ih =>
    obtain ⟨next, hstep, hrest⟩ := Option.bind_eq_some_iff.mp hsteps
    exact ih (sound_step h hstep) hrest

/-- A timer as it is constructed. -/
theorem sound_new (ms now : ℚ) : Sound { ms, now } := by
  refine ⟨rfl, nofun, nofun, rfl, fun after now before heq => ?_⟩
  simp at heq

/-- In every history, at most one timeout is pending, a started timer has one or a pass that runs, and no pass starts
before the due time of the last wait, or while the last call was not `start()`. -/
theorem chain_kept {ms now : ℚ} {history : List Step} (h : steps { ms, now } history = some t) :
    t.pending.length ≤ 1 ∧
    (startedIn t.log = true → t.pending.length = 1 ∨ 0 < t.passes) ∧
    ∀ after time before, t.log = after ++ .ran time :: before →
      (∃ due, lastArmed before = some due ∧ due ≤ time) ∧ startedIn before = true := by
  have hsound := sound_steps (sound_new ms now) h
  have hlength : t.pending.length = t.handle.toList.length := by rw [hsound.pending]
  refine ⟨?_, fun hstarted => ?_, hsound.orderly⟩
  · rw [hlength]
    cases t.handle <;> simp
  · rw [hsound.called] at hstarted
    rcases hsound.alive (by simpa using hstarted) with hsome | ⟨hpass, -⟩
    · obtain ⟨handle, hhandle⟩ := Option.isSome_iff_exists.mp hsome
      exact .inl (by rw [hlength, hhandle]; rfl)
    · exact .inr hpass

/-- A timeout that fires early, a pass that anchors, and one beside it that throws without. -/
theorem chain_kept_overlap :
    ∃ t, steps { ms := 5, now := 0 } [.start, .clock 4, .fire 0, .clock 5, .fire 1, .anchor (some 1), .clock 6, .fire 2,
        .settle false, .settle true] = some t ∧ t.pending.length ≤ 1 ∧ (t.pending.length = 1 ∨ 0 < t.passes) := by
  have hrun : (steps { ms := 5, now := 0 } [.start, .clock 4, .fire 0, .clock 5, .fire 1, .anchor (some 1), .clock 6, .fire 2,
      .settle false, .settle true]).any (fun t => startedIn t.log) = true := by decide +kernel
  obtain ⟨t, ht, hstarted⟩ := (Option.any_eq_true _ _).mp hrun
  exact ⟨t, ht, (chain_kept ht).1, (chain_kept ht).2.1 hstarted⟩

end Kept

end TimerChain

end PgBoss
