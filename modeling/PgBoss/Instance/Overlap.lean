import PgBoss.Instance.StartStop

/-!
# Starts and stops apart

Each promise field names the one call whose promise it is, so no two starts and no two stops are ever
under way. A start and a stop are apart as long as a call that waited for one of the other kind goes on
with no other of that kind in flight; a call that slips in between the clearing of a field and the
resumption of those still waiting brings them together.
-/

namespace PgBoss

namespace PgBossInstance

variable {config : InstanceConfig} {may : PgBossInstance → Call → Prop} {w w' w₀ : PgBossInstance} {c : ℕ}
  {call old : Call}

theorem update_cases {calls : ℕ → Call} {c' : ℕ} {x : Call} (h : Function.update calls c call c' = x) :
    c' = c ∧ call = x ∨ c' ≠ c ∧ calls c' = x := by
  by_cases hc : c' = c
  · subst hc
    exact .inl ⟨rfl, by rwa [Function.update_self] at h⟩
  · exact .inr ⟨hc, by rwa [Function.update_of_ne hc] at h⟩

section Fields

/-- Each field names the call whose promise it holds. -/
structure Fields (w : PgBossInstance) : Prop where
  starting : ∀ c, w.startingPromise = some c ↔ (w.calls c).startInFlight = true
  stopping : ∀ c, w.stoppingPromise = some c ↔ (w.calls c).stopInFlight = true

/-- A call goes on with what it holds. -/
theorem Fields.keep (h : w.Fields) (hcall : w.calls c = old) (hstart : call.startInFlight = old.startInFlight)
    (hstop : call.stopInFlight = old.stopInFlight) : (w.setCall c call).Fields := by
  subst hcall
  constructor <;> intro c' <;> by_cases hc : c' = c
  · subst hc
    simpa [setCall, hstart] using h.starting c'
  · simpa [setCall, hc] using h.starting c'
  · subst hc
    simpa [setCall, hstop] using h.stopping c'
  · simpa [setCall, hc] using h.stopping c'

/-- A call takes the first field. -/
theorem Fields.takeStart (h : w.Fields) (hnone : w.startingPromise = none) (hcall : w.calls c = old)
    (hstart : call.startInFlight = true) (hstop : call.stopInFlight = old.stopInFlight) :
    ({ w with startingPromise := some c }.setCall c call).Fields := by
  subst hcall
  constructor <;> intro c' <;> by_cases hc : c' = c
  · subst hc
    simp [setCall, hstart]
  · have hnot : (w.calls c').startInFlight = false := by simpa [hnone] using h.starting c'
    simp [setCall, hc, Ne.symm hc, hnot]
  · subst hc
    simpa [setCall, hstop] using h.stopping c'
  · simpa [setCall, hc] using h.stopping c'

/-- A call gives the first field back. -/
theorem Fields.clearStart (h : w.Fields) (hcall : w.calls c = old) (hheld : old.startInFlight = true)
    (hstart : call.startInFlight = false) (hstop : call.stopInFlight = old.stopInFlight) :
    ({ w with startingPromise := none }.setCall c call).Fields := by
  subst hcall
  have hname := (h.starting c).mpr hheld
  constructor <;> intro c' <;> by_cases hc : c' = c
  · subst hc
    simp [setCall, hstart]
  · have := h.starting c'
    simpa [setCall, hc, hname, Ne.symm hc] using this
  · subst hc
    simpa [setCall, hstop] using h.stopping c'
  · simpa [setCall, hc] using h.stopping c'

/-- A call takes the second field. -/
theorem Fields.takeStop (h : w.Fields) (hnone : w.stoppingPromise = none) (hcall : w.calls c = old)
    (hstop : call.stopInFlight = true) (hstart : call.startInFlight = old.startInFlight) :
    ({ w with stoppingPromise := some c }.setCall c call).Fields := by
  subst hcall
  constructor <;> intro c' <;> by_cases hc : c' = c
  · subst hc
    simpa [setCall, hstart] using h.starting c'
  · simpa [setCall, hc] using h.starting c'
  · subst hc
    simp [setCall, hstop]
  · have hnot : (w.calls c').stopInFlight = false := by simpa [hnone] using h.stopping c'
    simp [setCall, hc, Ne.symm hc, hnot]

/-- A call gives the second field back. -/
theorem Fields.clearStop (h : w.Fields) (hcall : w.calls c = old) (hheld : old.stopInFlight = true)
    (hstop : call.stopInFlight = false) (hstart : call.startInFlight = old.startInFlight) :
    ({ w with stoppingPromise := none }.setCall c call).Fields := by
  subst hcall
  have hname := (h.stopping c).mpr hheld
  constructor <;> intro c' <;> by_cases hc : c' = c
  · subst hc
    simpa [setCall, hstart] using h.starting c'
  · simpa [setCall, hc] using h.starting c'
  · subst hc
    simp [setCall, hstop]
  · have := h.stopping c'
    simpa [setCall, hc, hname, Ne.symm hc] using this

/-- The flags and the subsystems do not matter to the fields. -/
theorem Fields.of_eq (h : w.Fields) (hstarting : w'.startingPromise = w.startingPromise)
    (hstopping : w'.stoppingPromise = w.stoppingPromise) (hcalls : w'.calls = w.calls) : w'.Fields where
  starting c := by rw [hstarting, hcalls]; exact h.starting c
  stopping c := by rw [hstopping, hcalls]; exact h.stopping c

theorem applyStart_fields (h : w.Fields) (step : StartStep) : (w.applyStart config step).Fields := by
  cases step <;> exact h.of_eq rfl rfl rfl

theorem applyStop_fields (h : w.Fields) (step : StopStep) : (w.applyStop step).Fields := by
  cases step <;> exact h.of_eq rfl rfl rfl

@[simp] theorem applyStart_calls (w : PgBossInstance) (step : StartStep) : (w.applyStart config step).calls = w.calls := by
  cases step <;> rfl

@[simp] theorem applyStop_calls (w : PgBossInstance) (step : StopStep) : (w.applyStop step).calls = w.calls := by
  cases step <;> rfl

theorem startProceeds_fields (h : w.Fields) (attempts : ℕ) (hcall : w.calls c = old)
    (hstart : old.startInFlight = false) (hstop : old.stopInFlight = false) :
    (w.startProceeds config c attempts).Fields := by
  rw [startProceeds]
  split
  next => exact h.keep hcall hstart.symm hstop.symm
  next hnone =>
    split
    · exact h.keep hcall hstart.symm hstop.symm
    · refine Fields.of_eq (h.takeStart hnone hcall ?_ ?_) rfl rfl rfl
      · rfl
      · exact hstop.symm

theorem settleStart_fields (h : w.Fields) (attempts : ℕ) (outcome : StartOutcome) (hcall : w.calls c = old)
    (hstart : old.startInFlight = true) (hstop : old.stopInFlight = false) :
    (w.settleStart c attempts outcome).Fields := by
  refine Fields.of_eq (h.keep hcall ?_ ?_) rfl rfl rfl
  · exact hstart.symm
  · exact hstop.symm

theorem stopProceeds_fields (h : w.Fields) (close graceful : Bool) (hcall : w.calls c = old)
    (hstart : old.startInFlight = false) (hstop : old.stopInFlight = false) :
    (w.stopProceeds config c close graceful).Fields := by
  rw [stopProceeds]
  split
  next => exact h.keep hcall hstart.symm hstop.symm
  next hnone =>
    split
    · refine Fields.of_eq (h.takeStop hnone hcall ?_ ?_) rfl rfl rfl
      · rfl
      · exact hstart.symm
    · split
      · exact h.keep hcall hstart.symm hstop.symm
      · exact h.takeStop hnone hcall rfl hstart.symm

theorem step_fields (h : w.Fields) (hstep : Step config may w w') : w'.Fields := by
  cases hstep with
  | startCalled c attempts hcall =>
    rw [startCalled]
    split
    · exact h.keep hcall rfl rfl
    · split
      · exact h.keep hcall rfl rfl
      · exact startProceeds_fields h attempts hcall rfl rfl
  | startResumed c attempts other hcall hover hmay => exact startProceeds_fields h attempts hcall rfl rfl
  | startJoined c attempts other attempts' outcome hcall hother => exact h.keep hcall rfl rfl
  | startAdvanced c attempts attempt step rest hcall =>
    have happlied : (w.applyStart config step).Fields := applyStart_fields h step
    have hcall : (w.applyStart config step).calls c = _ := (congrFun (applyStart_calls w step) c).trans hcall
    cases rest with
    | nil =>
      have hstarted : ({ w.applyStart config step with started := true } : PgBossInstance).Fields := happlied.of_eq rfl rfl rfl
      exact settleStart_fields hstarted attempts _ hcall rfl rfl
    | cons _ _ => exact happlied.keep hcall rfl rfl
  | startFailed c attempts attempt step rest assertion starts hcall _ =>
    cases starts with
    | true =>
      have happlied : (w.applyStart config step).Fields := applyStart_fields h step
      have hcall : (w.applyStart config step).calls c = _ := (congrFun (applyStart_calls w step) c).trans hcall
      simp only [startFailed, if_true]
      split
      · exact settleStart_fields happlied attempts _ hcall rfl rfl
      · exact happlied.keep hcall rfl rfl
    | false =>
      simp only [startFailed, Bool.false_eq_true, if_false]
      split
      · exact settleStart_fields h attempts _ hcall rfl rfl
      · exact h.keep hcall rfl rfl
  | delayEnded c attempts attempt hcall =>
    rw [delayEnded]
    split
    · exact settleStart_fields h attempts _ hcall rfl rfl
    · exact h.keep hcall rfl rfl
  | startFinally c attempts outcome hcall => exact h.clearStart hcall rfl rfl rfl
  | stopCalled c close graceful hcall =>
    have hcancelled : ({ w with startRetry := w.startRetry.map fun _ => true } : PgBossInstance).Fields :=
      h.of_eq rfl rfl rfl
    rw [stopCalled]
    split
    · exact hcancelled.keep hcall rfl rfl
    · exact stopProceeds_fields hcancelled close graceful hcall rfl rfl
  | stopResumed c close graceful other hcall hover hmay => exact stopProceeds_fields h close graceful hcall rfl rfl
  | stopJoined c close graceful other close' graceful' resolved hcall hother => exact h.keep hcall rfl rfl
  | stopAdvanced c close graceful step rest hcall =>
    have happlied := applyStop_fields h step
    have hcall := (congrFun (applyStop_calls w step) c).trans hcall
    cases rest with
    | nil =>
      refine Fields.of_eq (happlied.keep hcall ?_ ?_) rfl rfl rfl
      · rfl
      · rfl
    | cons _ _ => exact happlied.keep hcall rfl rfl
  | stopFailed c close graceful step rest stops hcall hstep =>
    rw [stopFailed]
    split
    · exact (applyStop_fields h step).keep ((congrFun (applyStop_calls w step) c).trans hcall) rfl rfl
    · exact h.keep hcall rfl rfl
  | dbClosed c close graceful hcall => exact h.keep hcall rfl rfl
  | stopFinally c close graceful resolved hcall => exact h.clearStop hcall rfl rfl rfl

end Fields

section Apart

/-- No promise is the call's. -/
def Idle (call : Call) : Prop := call.startInFlight = false ∧ call.stopInFlight = false

/-- A started instance's own pool is open. -/
def PoolKept (config : InstanceConfig) (w : PgBossInstance) : Prop :=
  config.ownPool = true → w.started = true → w.opened = true

/-- What a call may rely on where it is. -/
def Relies (config : InstanceConfig) (w : PgBossInstance) : Call → Prop
  | .start _ (.doStart _ rest) => config.ownPool = true → w.opened = true ∨ .openDb ∈ rest
  | .start _ (.settled (.resolved started opened)) | .start _ (.done (.resolved started opened)) =>
    started = true ∧ (config.ownPool = true → opened = true)
  | .stop close graceful (.doStop rest) =>
    rest <:+ stopSteps config close graceful ∧ (∀ s, w.running s = true → .stop s ∈ rest) ∧
      (rest = [.poolDrained] ∨ PoolKept config w)
  | .stop _ _ .closeDb => w.stopped = true
  | .stop _ _ (.settled _) => PoolKept config w
  | _ => True

/-- What the two flags say. -/
structure Flags (config : InstanceConfig) (w : PgBossInstance) : Prop where
  live : w.startingPromise ≠ none → w.stopped = false
  running : ∀ s, w.running s = true → w.stopped = false
  down : w.stopped = true → w.started = false
  kept : w.stoppingPromise = none → PoolKept config w

/-- No start and stop are both in flight. -/
structure Apart (config : InstanceConfig) (w : PgBossInstance) : Prop extends Fields w, Flags config w where
  apart : w.startingPromise = none ∨ w.stoppingPromise = none
  relies : ∀ c, Relies config w (w.calls c)

/-- A call no promise belongs to relies on nothing that changes. -/
theorem Relies.of_idle (hidle : Idle call) (h : Relies config w call) : Relies config w' call := by
  obtain ⟨hstart, hstop⟩ := hidle
  cases call with
  | unmade => trivial
  | start attempts phase =>
    cases phase with
    | done outcome => cases outcome <;> exact h
    | awaitingStop | joined => trivial
    | doStart | delay | settled => simp [Call.startInFlight] at hstart
  | stop close graceful phase =>
    cases phase with
    | awaitingStart | joined | done => trivial
    | doStop | closeDb | settled => simp [Call.stopInFlight] at hstop

/-- What a call relies on is among the flags and the subsystems. -/
theorem Relies.of_eq (hstopped : w'.stopped = w.stopped) (hstarted : w'.started = w.started)
    (hopened : w'.opened = w.opened) (hrunning : w'.running = w.running) (h : Relies config w call) :
    Relies config w' call := by
  unfold Relies PoolKept at *
  rwa [hstopped, hstarted, hopened, hrunning]

/-- Only the call of the first field is not idle. -/
theorem Apart.others_idle_of_start (h : w.Apart config) (hc : (w.calls c).startInFlight = true) :
    ∀ c', c' ≠ c → Idle (w.calls c') := by
  intro c' hne
  have hname := (h.starting c).mpr hc
  have hnone : w.stoppingPromise = none := h.apart.resolve_left (by simp [hname])
  have hstart := h.starting c'
  have hstop := h.stopping c'
  simp only [hname, hnone, Option.some.injEq, reduceCtorEq, false_iff, Bool.not_eq_true] at hstart hstop
  exact ⟨by simpa [Ne.symm hne] using hstart, hstop⟩

/-- Only the call of the second field is not idle. -/
theorem Apart.others_idle_of_stop (h : w.Apart config) (hc : (w.calls c).stopInFlight = true) :
    ∀ c', c' ≠ c → Idle (w.calls c') := by
  intro c' hne
  have hname := (h.stopping c).mpr hc
  have hnone : w.startingPromise = none := h.apart.resolve_right (by simp [hname])
  have hstart := h.starting c'
  have hstop := h.stopping c'
  simp only [hname, hnone, Option.some.injEq, reduceCtorEq, false_iff, Bool.not_eq_true] at hstart hstop
  exact ⟨hstart, by simpa [Ne.symm hne] using hstop⟩

/-- With both fields empty every call is idle. -/
theorem Apart.all_idle (h : w.Apart config) (hstarting : w.startingPromise = none)
    (hstopping : w.stoppingPromise = none) (c : ℕ) : Idle (w.calls c) := by
  have hstart := h.starting c
  have hstop := h.stopping c
  simp only [hstarting, hstopping, reduceCtorEq, false_iff, Bool.not_eq_true] at hstart hstop
  exact ⟨hstart, hstop⟩

/-- The only call in flight goes on. -/
theorem Apart.solo (h : w.Apart config) (hfields : w'.Fields) (hothers : ∀ c', c' ≠ c → Idle (w.calls c'))
    (hcalls : w'.calls = Function.update w.calls c call) (hflags : Flags config w') (hrelies : Relies config w' call) :
    w'.Apart config where
  toFields := hfields
  toFlags := hflags
  apart := by
    have hof : ∀ c', c' ≠ c → Idle (w'.calls c') := by
      intro c' hne
      rw [hcalls, Function.update_of_ne hne]
      exact hothers c' hne
    by_contra hboth
    rw [not_or] at hboth
    obtain ⟨c₁, hstarting⟩ := Option.ne_none_iff_exists'.mp hboth.1
    obtain ⟨c₂, hstopping⟩ := Option.ne_none_iff_exists'.mp hboth.2
    have hstart := (hfields.starting c₁).mp hstarting
    have hstop := (hfields.stopping c₂).mp hstopping
    have hc₁ : c₁ = c := by
      by_contra hne
      simp [(hof c₁ hne).1] at hstart
    have hc₂ : c₂ = c := by
      by_contra hne
      simp [(hof c₂ hne).2] at hstop
    subst hc₁ hc₂
    revert hstart hstop
    cases w'.calls c₂ <;> simp [Call.startInFlight, Call.stopInFlight]
  relies c' := by
    rw [hcalls]
    by_cases hc : c' = c
    · subst hc
      simpa using hrelies
    · rw [Function.update_of_ne hc]
      exact Relies.of_idle (hothers c' hc) (h.relies c')

/-- An idle call goes on and stays idle. -/
theorem Apart.quiet (h : w.Apart config) (hcall : w.calls c = old) (hold : Idle old) (hidle : Idle call)
    (hrelies : Relies config w call) : (w.setCall c call).Apart config where
  toFields := h.toFields.keep hcall (hidle.1.trans hold.1.symm) (hidle.2.trans hold.2.symm)
  live := h.live
  running := h.running
  down := h.down
  kept := h.kept
  apart := h.apart
  relies c' := by
    by_cases hc : c' = c
    · subst hc
      have hself : (w.setCall c' call).calls c' = call := Function.update_self ..
      rw [hself]
      exact hrelies.of_eq rfl rfl rfl rfl
    · have hother : (w.setCall c call).calls c' = w.calls c' := Function.update_of_ne hc ..
      rw [hother]
      exact (h.relies c').of_eq rfl rfl rfl rfl

/-- A call that holds the first field has the instance not stopped. -/
theorem Apart.live_of_start (h : w.Apart config) (hc : (w.calls c).startInFlight = true) :
    w.stopped = false ∧ PoolKept config w := by
  have hname := (h.starting c).mpr hc
  exact ⟨h.live (by simp [hname]), h.kept (h.apart.resolve_left (by simp [hname]))⟩

theorem Flags.of_live (hstopped : w.stopped = false) (hkept : PoolKept config w) : Flags config w where
  live _ := hstopped
  running _ _ := hstopped
  down hdown := by simp [hstopped] at hdown
  kept _ := hkept

end Apart

section Starting

@[simp] theorem applyStart_stopped (w : PgBossInstance) (step : StartStep) :
    (w.applyStart config step).stopped = w.stopped := by cases step <;> rfl

@[simp] theorem applyStart_started (w : PgBossInstance) (step : StartStep) :
    (w.applyStart config step).started = w.started := by cases step <;> rfl

theorem applyStart_kept (h : PoolKept config w) (step : StartStep) : PoolKept config (w.applyStart config step) := by
  intro hown hstarted
  have hopened := h hown (by simpa using hstarted)
  cases step <;> simp [applyStart, hopened]

/-- The pool is open once the step that opens it is past. -/
theorem applyStart_pool {step : StartStep} {rest : List StartStep}
    (h : config.ownPool = true → w.opened = true ∨ .openDb ∈ step :: rest) :
    config.ownPool = true → (w.applyStart config step).opened = true ∨ .openDb ∈ rest := by
  intro hown
  specialize h hown
  cases step <;> simp_all [applyStart]

theorem openDb_mem_startSteps : .openDb ∈ startSteps config := by
  simp [startSteps]

theorem startProceeds_apart (h : w.Apart config) (attempts : ℕ) (hcall : w.calls c = old) (hidle : Idle old)
    (hfields : (w.startProceeds config c attempts).Fields) (hnone : w.stoppingPromise = none) :
    (w.startProceeds config c attempts).Apart config := by
  rw [startProceeds] at hfields ⊢
  split
  next => exact h.quiet hcall hidle ⟨rfl, rfl⟩ trivial
  next hstarting =>
    split
    next hstarted => exact h.quiet hcall hidle ⟨rfl, rfl⟩ ⟨hstarted, fun hown => h.kept hnone hown hstarted⟩
    next hstarted =>
      simp only [hstarting] at hfields
      rw [if_neg hstarted] at hfields
      refine h.solo hfields (fun c' _ => h.all_idle hstarting hnone c') rfl (Flags.of_live rfl ?_) ?_
      · exact fun hown hstarted => h.kept hnone hown hstarted
      · exact fun _ => .inr openDb_mem_startSteps

theorem startAdvanced_apart (h : w.Apart config) {attempts attempt : ℕ} {step : StartStep} {rest : List StartStep}
    (hcall : w.calls c = .start attempts (.doStart attempt (step :: rest)))
    (hfields : (w.startAdvanced config c attempts attempt step rest).Fields) :
    (w.startAdvanced config c attempts attempt step rest).Apart config := by
  have hheld : (w.calls c).startInFlight = true := by rw [hcall]; rfl
  obtain ⟨hstopped, hkept⟩ := h.live_of_start hheld
  have hpool : config.ownPool = true → (w.applyStart config step).opened = true ∨ .openDb ∈ rest :=
    applyStart_pool (by simpa [hcall, Relies] using h.relies c)
  cases rest with
  | nil =>
    have hopened : config.ownPool = true → (w.applyStart config step).opened = true := by simpa using hpool
    have hcalls : (w.startAdvanced config c attempts attempt step []).calls = Function.update w.calls c
        (.start attempts (.settled (.resolved true (w.applyStart config step).opened))) :=
      congrArg (Function.update · c _) (applyStart_calls w step)
    refine h.solo hfields (h.others_idle_of_start hheld) hcalls (Flags.of_live ?_ fun hown _ => hopened hown) ⟨rfl, hopened⟩
    exact (applyStart_stopped w step).trans hstopped
  | cons next rest =>
    have hcalls : (w.startAdvanced config c attempts attempt step (next :: rest)).calls = Function.update w.calls c
        (.start attempts (.doStart attempt (next :: rest))) :=
      congrArg (Function.update · c _) (applyStart_calls w step)
    refine h.solo hfields (h.others_idle_of_start hheld) hcalls (Flags.of_live ?_ (applyStart_kept hkept step)) hpool
    exact (applyStart_stopped w step).trans hstopped

theorem startFailed_apart (h : w.Apart config) {attempts attempt : ℕ} {step : StartStep} {rest : List StartStep}
    {assertion starts : Bool} (hcall : w.calls c = .start attempts (.doStart attempt (step :: rest)))
    (hfields : (w.startFailed config c attempts attempt step assertion starts).Fields) :
    (w.startFailed config c attempts attempt step assertion starts).Apart config := by
  have hheld : (w.calls c).startInFlight = true := by rw [hcall]; rfl
  obtain ⟨hstopped, hkept⟩ := h.live_of_start hheld
  -- Whatever the step did before it threw, the flags stay and the pool is no less open.
  obtain ⟨v, hv, hcalls, hvstopped, hvkept⟩ : ∃ v, v = (if starts then w.applyStart config step else w) ∧
      v.calls = w.calls ∧ v.stopped = false ∧ PoolKept config v := by
    refine ⟨_, rfl, ?_⟩
    split
    · exact ⟨applyStart_calls w step, (applyStart_stopped w step).trans hstopped, applyStart_kept hkept step⟩
    · exact ⟨rfl, hstopped, hkept⟩
  unfold startFailed at hfields ⊢
  simp only [← hv] at hfields ⊢
  split at hfields
  next hlast =>
    rw [if_pos hlast]
    exact h.solo hfields (h.others_idle_of_start hheld) (congrArg (Function.update · c _) hcalls)
      (Flags.of_live hvstopped hvkept) trivial
  next hlast =>
    rw [if_neg hlast]
    exact h.solo hfields (h.others_idle_of_start hheld) (congrArg (Function.update · c _) hcalls)
      (Flags.of_live hvstopped hvkept) trivial

theorem delayEnded_apart (h : w.Apart config) {attempts attempt : ℕ} (hcall : w.calls c = .start attempts (.delay attempt))
    (hfields : (w.delayEnded config c attempts attempt).Fields) :
    (w.delayEnded config c attempts attempt).Apart config := by
  have hheld : (w.calls c).startInFlight = true := by rw [hcall]; rfl
  obtain ⟨hstopped, hkept⟩ := h.live_of_start hheld
  rw [delayEnded] at hfields ⊢
  split at hfields
  next hcancelled =>
    rw [if_pos hcancelled]
    exact h.solo hfields (h.others_idle_of_start hheld) rfl (Flags.of_live hstopped hkept) trivial
  next hcancelled =>
    rw [if_neg hcancelled]
    exact h.solo hfields (h.others_idle_of_start hheld) rfl (Flags.of_live hstopped hkept)
      fun _ => .inr openDb_mem_startSteps

theorem startFinally_apart (h : w.Apart config) {attempts : ℕ} {outcome : StartOutcome}
    (hcall : w.calls c = .start attempts (.settled outcome)) (hfields : (w.startFinally c attempts outcome).Fields) :
    (w.startFinally c attempts outcome).Apart config := by
  have hheld : (w.calls c).startInFlight = true := by rw [hcall]; rfl
  obtain ⟨hstopped, hkept⟩ := h.live_of_start hheld
  have hrelies := h.relies c
  rw [hcall] at hrelies
  refine h.solo hfields (h.others_idle_of_start hheld) rfl (Flags.of_live hstopped hkept) ?_
  cases outcome <;> exact hrelies

end Starting

section Stopping

@[simp] theorem applyStop_stopped (w : PgBossInstance) (step : StopStep) : (w.applyStop step).stopped = w.stopped := by
  cases step <;> rfl

@[simp] theorem applyStop_started (w : PgBossInstance) (step : StopStep) : (w.applyStop step).started = w.started := by
  cases step <;> rfl

@[simp] theorem applyStop_startingPromise (w : PgBossInstance) (step : StopStep) :
    (w.applyStop step).startingPromise = w.startingPromise := by cases step <;> rfl

@[simp] theorem applyStop_stoppingPromise (w : PgBossInstance) (step : StopStep) :
    (w.applyStop step).stoppingPromise = w.stoppingPromise := by cases step <;> rfl

theorem applyStop_kept (h : PoolKept config w) {step : StopStep} (hstep : step ≠ .closePool) :
    PoolKept config (w.applyStop step) := by
  cases step with
  | closePool => exact absurd rfl hstep
  | stop | failWip | settleCleanups | disposeClock | poolDrained => exact h

/-- A step stops its subsystem and no other is started. -/
theorem applyStop_running {step : StopStep} {rest : List StopStep}
    (h : ∀ s, w.running s = true → .stop s ∈ step :: rest) (s : Subsystem)
    (hs : (w.applyStop step).running s = true) : .stop s ∈ rest := by
  cases step with
  | stop s' =>
    rcases eq_or_ne s s' with rfl | hne
    · simp [applyStop] at hs
    · have hmem := h s (by simpa [applyStop, hne] using hs)
      simpa [hne] using hmem
  | closePool | failWip | settleCleanups | disposeClock | poolDrained => simpa using h s hs

theorem running_of_applyStop {step : StopStep} {s : Subsystem} (hs : (w.applyStop step).running s = true) :
    w.running s = true := by
  cases step with
  | stop s' =>
    rcases eq_or_ne s s' with rfl | hne
    · simp [applyStop] at hs
    · simpa [applyStop, hne] using hs
  | closePool | failWip | settleCleanups | disposeClock | poolDrained => exact hs

/-- A stop has a step for each subsystem. -/
theorem stop_mem_stopSteps (close graceful : Bool) (s : Subsystem) : .stop s ∈ stopSteps config close graceful := by
  cases s <;> simp [stopSteps]

/-- Only the drain follows the closing of the pool. -/
theorem closePool_rest {close graceful : Bool} {rest : List StopStep}
    (h : .closePool :: rest <:+ stopSteps config close graceful) : rest = [.poolDrained] := by
  have hclose : close = true ∧ config.ownPool = true := by
    have hmem := h.mem List.mem_cons_self
    cases close <;> cases graceful <;> cases hown : config.ownPool <;> simp_all [stopSteps, closeSteps]
  obtain ⟨rfl, hown⟩ := hclose
  cases graceful <;> simpa [stopSteps, closeSteps, hown, List.suffix_cons_iff] using h

theorem stopProceeds_apart (h : w.Apart config) (close graceful : Bool) (hcall : w.calls c = old) (hidle : Idle old)
    (hfields : (w.stopProceeds config c close graceful).Fields) (hnone : w.startingPromise = none) :
    (w.stopProceeds config c close graceful).Apart config := by
  rw [stopProceeds] at hfields ⊢
  split
  next => exact h.quiet hcall hidle ⟨rfl, rfl⟩ trivial
  next hstopping =>
    simp only [hstopping] at hfields
    have hothers : ∀ c', c' ≠ c → Idle (w.calls c') := fun c' _ => h.all_idle hnone hstopping c'
    split
    next hclose =>
      rw [if_pos hclose] at hfields
      simp only [Bool.and_eq_true] at hclose
      refine h.solo hfields hothers rfl ⟨fun hstarting => absurd hnone hstarting, h.running, h.down, ?_⟩ hclose.1.1.1
      exact fun hempty => by cases hempty
    next hclose =>
      rw [if_neg hclose] at hfields
      split
      next hstopped => exact h.quiet hcall hidle ⟨rfl, rfl⟩ trivial
      next hstopped =>
        rw [if_neg hstopped] at hfields
        refine h.solo hfields hothers rfl ⟨fun hstarting => absurd hnone hstarting, h.running, h.down, ?_⟩
          ⟨List.suffix_rfl, fun s _ => stop_mem_stopSteps close graceful s, .inr (h.kept hstopping)⟩
        exact fun hempty => by cases hempty

theorem stopAdvanced_apart (h : w.Apart config) {close graceful : Bool} {step : StopStep} {rest : List StopStep}
    (hcall : w.calls c = .stop close graceful (.doStop (step :: rest)))
    (hfields : (w.stopAdvanced c close graceful step rest).Fields) :
    (w.stopAdvanced c close graceful step rest).Apart config := by
  have hheld : (w.calls c).stopInFlight = true := by rw [hcall]; rfl
  have hname := (h.stopping c).mpr hheld
  have hnone : w.startingPromise = none := h.apart.resolve_right (by simp [hname])
  obtain ⟨hsuffix, hrunning, hdrained⟩ : _ ∧ _ ∧ _ := by simpa only [hcall, Relies] using h.relies c
  have hrest := applyStop_running hrunning
  cases rest with
  | nil =>
    have hcalls : (w.stopAdvanced c close graceful step []).calls = Function.update w.calls c
        (.stop close graceful (.settled true)) := congrArg (Function.update · c _) (applyStop_calls w step)
    refine h.solo hfields (h.others_idle_of_stop hheld) hcalls ⟨?_, ?_, fun _ => rfl, ?_⟩ ?_
    · exact fun hstarting => absurd ((applyStop_startingPromise w step).trans hnone) hstarting
    · exact fun s hs => absurd (hrest s hs) List.not_mem_nil
    · exact fun _ _ hstarted => by cases hstarted
    · exact fun _ hstarted => by cases hstarted
  | cons next rest =>
    have hcalls : (w.stopAdvanced c close graceful step (next :: rest)).calls = Function.update w.calls c
        (.stop close graceful (.doStop (next :: rest))) := congrArg (Function.update · c _) (applyStop_calls w step)
    refine h.solo hfields (h.others_idle_of_stop hheld) hcalls ⟨?_, ?_, ?_, ?_⟩ ⟨?_, hrest, ?_⟩
    · exact fun hstarting => absurd ((applyStop_startingPromise w step).trans hnone) hstarting
    · exact fun s hs => (applyStop_stopped w step).trans (h.running s (running_of_applyStop hs))
    · exact fun hstopped => (applyStop_started w step).trans (h.down ((applyStop_stopped w step).symm.trans hstopped))
    · exact fun hempty => by simp [stopAdvanced, setCall, hname] at hempty
    · exact (List.suffix_cons step _).trans hsuffix
    · by_cases hclose : step = .closePool
      · subst hclose
        exact .inl (closePool_rest hsuffix)
      · refine .inr (applyStop_kept ?_ hclose)
        exact hdrained.resolve_left (by simp)

theorem stopFailed_apart (h : w.Apart config) {close graceful : Bool} {step : StopStep} {rest : List StopStep} {stops : Bool}
    (hcall : w.calls c = .stop close graceful (.doStop (step :: rest)))
    (hstep : step ≠ .closePool ∧ step ≠ .poolDrained)
    (hfields : (w.stopFailed c close graceful step stops).Fields) :
    (w.stopFailed c close graceful step stops).Apart config := by
  have hheld : (w.calls c).stopInFlight = true := by rw [hcall]; rfl
  have hname := (h.stopping c).mpr hheld
  have hnone : w.startingPromise = none := h.apart.resolve_right (by simp [hname])
  obtain ⟨-, -, hdrained⟩ : _ ∧ _ ∧ _ := by simpa only [hcall, Relies] using h.relies c
  have hkept : PoolKept config w := hdrained.resolve_left (by simp [hstep.2])
  cases stops with
  | true =>
    have hcalls : (w.stopFailed c close graceful step true).calls = Function.update w.calls c
        (.stop close graceful (.settled false)) := congrArg (Function.update · c _) (applyStop_calls w step)
    refine h.solo hfields (h.others_idle_of_stop hheld) hcalls ⟨?_, ?_, ?_, ?_⟩ (applyStop_kept hkept hstep.1)
    · exact fun hstarting => absurd ((applyStop_startingPromise w step).trans hnone) hstarting
    · exact fun s hs => (applyStop_stopped w step).trans (h.running s (running_of_applyStop hs))
    · exact fun hstopped => (applyStop_started w step).trans (h.down ((applyStop_stopped w step).symm.trans hstopped))
    · exact fun _ => applyStop_kept hkept hstep.1
  | false =>
    refine h.solo hfields (h.others_idle_of_stop hheld) rfl ⟨?_, h.running, h.down, fun _ => hkept⟩ hkept
    exact fun hstarting => absurd hnone hstarting

theorem dbClosed_apart (h : w.Apart config) {close graceful : Bool} (hcall : w.calls c = .stop close graceful .closeDb)
    (hfields : (w.setCall c (.stop close graceful (.settled true))).Fields) :
    (w.setCall c (.stop close graceful (.settled true))).Apart config := by
  have hheld : (w.calls c).stopInFlight = true := by rw [hcall]; rfl
  have hstopped : w.stopped = true := by simpa only [hcall, Relies] using h.relies c
  refine h.solo hfields (h.others_idle_of_stop hheld) rfl ⟨h.live, h.running, h.down, h.kept⟩ ?_
  intro _ hstarted
  have hdown : w.started = false := h.down hstopped
  exact absurd (hdown.symm.trans hstarted) Bool.false_ne_true

theorem stopFinally_apart (h : w.Apart config) {close graceful resolved : Bool}
    (hcall : w.calls c = .stop close graceful (.settled resolved))
    (hfields : (w.stopFinally c close graceful resolved).Fields) :
    (w.stopFinally c close graceful resolved).Apart config := by
  have hheld : (w.calls c).stopInFlight = true := by rw [hcall]; rfl
  have hkept : PoolKept config w := by simpa only [hcall, Relies] using h.relies c
  exact h.solo hfields (h.others_idle_of_stop hheld) rfl ⟨h.live, h.running, h.down, fun _ => hkept⟩ trivial

end Stopping

section Runs

/-- A call that waited for one of the other kind goes on with none of that kind in flight. -/
def Undisturbed (w : PgBossInstance) : Call → Prop
  | .start _ (.awaitingStop _) => w.stoppingPromise = none
  | .stop _ _ (.awaitingStart _) => w.startingPromise = none
  | _ => True

theorem new_fields : ({} : PgBossInstance).Fields where
  starting c := by simp [Call.startInFlight]
  stopping c := by simp [Call.stopInFlight]

theorem new_apart : ({} : PgBossInstance).Apart config where
  toFields := new_fields
  live h := absurd rfl h
  running s hs := by simp at hs
  down _ := rfl
  kept _ _ hstarted := by simp at hstarted
  apart := .inl rfl
  relies c := trivial

theorem step_apart (h : w.Apart config) (hstep : Step config Undisturbed w w') : w'.Apart config := by
  have hfields := step_fields h.toFields hstep
  cases hstep with
  | startCalled c attempts hcall =>
    rw [startCalled] at hfields ⊢
    split
    next => exact h.quiet hcall ⟨rfl, rfl⟩ ⟨rfl, rfl⟩ trivial
    next hattempts =>
      rw [if_neg hattempts] at hfields
      split
      next => exact h.quiet hcall ⟨rfl, rfl⟩ ⟨rfl, rfl⟩ trivial
      next hnone =>
        simp only [hnone] at hfields
        exact startProceeds_apart h attempts hcall ⟨rfl, rfl⟩ hfields hnone
  | startResumed c attempts other hcall hover hmay =>
    rw [hcall] at hmay
    exact startProceeds_apart h attempts hcall ⟨rfl, rfl⟩ hfields hmay
  | startJoined c attempts other attempts' outcome hcall hother =>
    have hrelies := h.relies other
    rw [hother] at hrelies
    exact h.quiet hcall ⟨rfl, rfl⟩ ⟨rfl, rfl⟩ (by cases outcome <;> exact hrelies)
  | startAdvanced c attempts attempt step rest hcall => exact startAdvanced_apart h hcall hfields
  | startFailed c attempts attempt step rest assertion starts hcall hstep => exact startFailed_apart h hcall hfields
  | delayEnded c attempts attempt hcall => exact delayEnded_apart h hcall hfields
  | startFinally c attempts outcome hcall => exact startFinally_apart h hcall hfields
  | stopCalled c close graceful hcall =>
    have hcancelled : ({ w with startRetry := w.startRetry.map fun _ => true } : PgBossInstance).Apart config :=
      ⟨h.toFields.of_eq rfl rfl rfl, ⟨h.live, h.running, h.down, h.kept⟩, h.apart,
        fun c => (h.relies c).of_eq rfl rfl rfl rfl⟩
    rw [stopCalled] at hfields ⊢
    split
    next => exact hcancelled.quiet hcall ⟨rfl, rfl⟩ ⟨rfl, rfl⟩ trivial
    next hnone =>
      have hfields : (stopProceeds config _ c close graceful).Fields :=
        stopProceeds_fields hcancelled.toFields close graceful hcall rfl rfl
      exact stopProceeds_apart hcancelled close graceful hcall ⟨rfl, rfl⟩ hfields hnone
  | stopResumed c close graceful other hcall hover hmay =>
    rw [hcall] at hmay
    exact stopProceeds_apart h close graceful hcall ⟨rfl, rfl⟩ hfields hmay
  | stopJoined c close graceful other close' graceful' resolved hcall hother =>
    exact h.quiet hcall ⟨rfl, rfl⟩ ⟨rfl, rfl⟩ trivial
  | stopAdvanced c close graceful step rest hcall => exact stopAdvanced_apart h hcall hfields
  | stopFailed c close graceful step rest stops hcall hstep => exact stopFailed_apart h hcall hstep hfields
  | dbClosed c close graceful hcall => exact dbClosed_apart h hcall hfields
  | stopFinally c close graceful resolved hcall => exact stopFinally_apart h hcall hfields

theorem run_fields (hrun : Run config may {} w) : w.Fields := by
  induction hrun with
  | refl => exact new_fields
  | tail _ hstep ih => exact step_fields ih hstep

theorem run_apart (hrun : Run config Undisturbed {} w) : w.Apart config := by
  induction hrun with
  | refl => exact new_apart
  | tail _ hstep ih => exact step_apart ih hstep

theorem DoingStart.startingPromise (h : w.Fields) (hc : w.DoingStart c) : w.startingPromise = some c := by
  obtain ⟨attempts, attempt, rest, hcall⟩ := hc
  exact (h.starting c).mpr (by rw [hcall]; rfl)

theorem DoingStop.stoppingPromise (h : w.Fields) (hc : w.DoingStop c) : w.stoppingPromise = some c := by
  obtain ⟨close, graceful, hcall | ⟨rest, hcall⟩⟩ := hc
  · exact (h.stopping c).mpr (by rw [hcall]; rfl)
  · exact (h.stopping c).mpr (by rw [hcall]; rfl)

/-- No two `#doStart` and no two stop runs are in progress, in any run. -/
theorem one_start_one_stop (hrun : Run config may {} w) :
    (∀ c c', w.DoingStart c → w.DoingStart c' → c = c') ∧ ∀ c c', w.DoingStop c → w.DoingStop c' → c = c' := by
  have hfields := run_fields hrun
  constructor
  · intro c c' hc hc'
    exact Option.some.inj ((hc.startingPromise hfields).symm.trans (hc'.startingPromise hfields))
  · intro c c' hc hc'
    exact Option.some.inj ((hc.stoppingPromise hfields).symm.trans (hc'.stoppingPromise hfields))

/-- A stop past its waits does something as long as the instance is not stopped. -/
theorem stopProceeds_not_done (hstopped : w.stopped = false) (c : ℕ) (close graceful : Bool) :
    (w.stopProceeds config c close graceful).calls c ≠ .stop close graceful (.done true) := by
  rw [stopProceeds]
  split
  next => simp [setCall]
  next => simp [hstopped, setCall]

/-- The same of a stop just called. -/
theorem stopCalled_not_done (hstopped : w.stopped = false) (c : ℕ) (close graceful : Bool) :
    (w.stopCalled config c close graceful).calls c ≠ .stop close graceful (.done true) := by
  rw [stopCalled]
  split
  next => simp [setCall]
  next => exact stopProceeds_not_done (w := { w with startRetry := w.startRetry.map fun _ => true }) hstopped c close graceful

end Runs

end PgBossInstance

open PgBossInstance

/-- In a run where every call that waited for one of the other kind goes on with none of that kind in flight: no
`#doStart` is in progress together with a `#doStop` or `#closeDb`, nor two of either; a `start()` that resolves found or
made the instance started with its pool open; and a `stop()` is not a no-op while a subsystem is started. -/
theorem start_stop_apart (config : InstanceConfig) (w : PgBossInstance) (hrun : Run config Undisturbed {} w) :
    (∀ c c', w.DoingStart c → ¬ w.DoingStop c') ∧ (∀ c c', w.DoingStart c → w.DoingStart c' → c = c') ∧
      (∀ c c', w.DoingStop c → w.DoingStop c' → c = c') ∧
      (∀ c attempts started opened, w.calls c = .start attempts (.done (.resolved started opened)) →
        started = true ∧ (config.ownPool = true → opened = true)) ∧
      ∀ s, w.running s = true → ∀ c close graceful,
        (w.stopCalled config c close graceful).calls c ≠ .stop close graceful (.done true) ∧
          (w.stopProceeds config c close graceful).calls c ≠ .stop close graceful (.done true) := by
  have h := run_apart hrun
  obtain ⟨hstarts, hstops⟩ := one_start_one_stop hrun
  refine ⟨?_, hstarts, hstops, ?_, ?_⟩
  · intro c c' hc hc'
    rcases h.apart with hnone | hnone
    · simp [hc.startingPromise h.toFields] at hnone
    · simp [hc'.stoppingPromise h.toFields] at hnone
  · intro c attempts started opened hcall
    have hrelies := h.relies c
    rwa [hcall] at hrelies
  · intro s hs c close graceful
    have hstopped := h.running s hs
    exact ⟨stopCalled_not_done hstopped c close graceful, stopProceeds_not_done hstopped c close graceful⟩

/-- A start fails while a stop waits for it, and the stop tears down alone. -/
theorem start_stop_apart_after_failure :
    ∃ w : PgBossInstance, w.DoingStop 1 ∧ ∀ c, ¬ w.DoingStart c := by
  let config : InstanceConfig := ⟨true, false, false, false, false⟩
  have hrun : ∃ w, Run config Undisturbed {} w ∧ w.DoingStop 1 :=
    ⟨_, Relation.ReflTransGen.refl
      |>.tail (.startCalled 0 1 rfl) |>.tail (.stopCalled 1 true true rfl) |>.tail (.startAdvanced 0 1 1 _ _ rfl)
      |>.tail (.startAdvanced 0 1 1 _ _ rfl) |>.tail (.startFailed 0 1 1 _ _ false false rfl (by decide))
      |>.tail (.startFinally 0 1 _ rfl) |>.tail (.stopResumed 1 true true 0 rfl rfl (by exact Eq.refl none)),
      true, true, .inr ⟨_, rfl⟩⟩
  obtain ⟨w, hrun, hstop⟩ := hrun
  exact ⟨w, hstop, fun c hstart => (start_stop_apart config w hrun).1 c 1 hstart hstop⟩

/-- A start fails while a stop waits for it; its caller starts again before the stop goes on, and the stop then tears
down what the second start is setting up. -/
theorem start_stop_overlap : ¬ ∀ (config : InstanceConfig) (w : PgBossInstance), Run config (fun _ _ => True) {} w →
    ∀ c c', w.DoingStart c → ¬ w.DoingStop c' := by
  intro h
  let config : InstanceConfig := ⟨true, false, false, false, false⟩
  have hrun : Run config (fun _ _ => True) {} _ :=
    Relation.ReflTransGen.refl
      |>.tail (.startCalled 0 1 rfl) |>.tail (.stopCalled 1 true true rfl) |>.tail (.startAdvanced 0 1 1 _ _ rfl)
      |>.tail (.startAdvanced 0 1 1 _ _ rfl) |>.tail (.startFailed 0 1 1 _ _ false false rfl (by decide))
      |>.tail (.startFinally 0 1 _ rfl) |>.tail (.startCalled 2 1 rfl) |>.tail (.stopResumed 1 true true 0 rfl rfl trivial)
  exact h config _ hrun 2 1 ⟨_, _, _, rfl⟩ ⟨true, true, .inr ⟨_, rfl⟩⟩

end PgBoss
