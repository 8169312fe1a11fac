import PgBoss.Worker.Loop

/-!
# Wake-ups

A worker that was notified since it began to fetch fetches again without waiting for a timer, and one that was told to
stop fetches no more, and ends. Both are so while no error is reported by a throw, which ends the loop.
-/

namespace PgBoss

namespace WorkerLoop

/-- What the loop did since it began the last fetch. -/
def sinceFetch (log : List LoopEntry) : List LoopEntry := log.takeWhile fun entry => entry ≠ .fetched

/-- The number of fetches begun. -/
def fetches (w : WorkerLoop) : ℕ := w.log.count .fetched

/-- The loop awaits a fetch, a batch, or a delay that has settled: no timer. -/
def Goes (w : WorkerLoop) : Prop :=
  w.phase = .fetching ∨ w.phase = .handling ∨ ∃ d, w.loopDelayPromise = some d ∧ d.settled = true

/-- How often the loop goes on before its next turn, at most: behind a fetch, behind a batch, behind a delay. -/
def turns : LoopPhase → ℕ
  | .fetching => 2
  | .handling => 1
  | .delaying => 1
  | _ => 0

/-- The loop goes on. -/
def Step.loops : Step → Bool
  | .settle _ _ _ => true
  | .resume => true
  | _ => false

/-- An error is reported by a throw. -/
def Step.raises : Step → Bool
  | .settle (.rejected raised) _ _ => raised
  | _ => false

def Step.stops : Step → Bool
  | .stop => true
  | _ => false

/-- A notified loop did not wait out a delay before it fetched again. -/
def Woken (log : List LoopEntry) : Prop :=
  ∀ later between before, log = later ++ .waited :: (between ++ .notified :: before) → .fetched ∈ between

/-- A loop that was told to stop began no fetch. -/
def Halted (log : List LoopEntry) : Prop := ∀ later before, log = later ++ .told :: before → .fetched ∉ later

/-- The delay of a loop is that of its phase. The clock holds its timer only while it was neither notified nor told. -/
structure Sound (w : WorkerLoop) : Prop where
  notified : .notified ∈ sinceFetch w.log → w.beenNotified = true
  delaying : w.phase = .delaying ↔ w.loopDelayPromise.isSome = true
  timed : ∀ d, w.loopDelayPromise = some d → d.timer = true →
    .notified ∉ sinceFetch w.log ∧ w.stopping = false ∧ d.aborted = false
  settled : ∀ d, w.loopDelayPromise = some d → d.settled = !d.timer
  told : .told ∈ w.log ↔ w.stopping = true ∨ w.stopped = true
  ended : w.stopped = true ↔ w.phase = .resolved
  fresh : w.phase = .created → .fetched ∉ w.log
  woken : Woken w.log
  halted : Halted w.log

section Log

variable {log : List LoopEntry} {entry : LoopEntry}

theorem mem_sinceFetch {between before : List LoopEntry} (h : .fetched ∉ between) :
    .notified ∈ sinceFetch (between ++ .notified :: before) := by
  induction between with
  | nil => simp [sinceFetch]
  | cons e between ih =>
    rw [List.mem_cons, not_or] at h
    have hne : e ≠ .fetched := Ne.symm h.1
    rw [List.cons_append, sinceFetch, List.takeWhile_cons_of_pos (by simpa using hne)]
    exact List.mem_cons_of_mem _ (ih h.2)

theorem sinceFetch_cons (h : entry ≠ .fetched) : sinceFetch (entry :: log) = entry :: sinceFetch log :=
  List.takeWhile_cons_of_pos (by simpa using h)

theorem sinceFetch_fetched : sinceFetch (.fetched :: log) = [] := List.takeWhile_cons_of_neg (by simp)

theorem Woken.cons (h : Woken log) (hentry : entry = .waited → .notified ∉ sinceFetch log) : Woken (entry :: log) := by
  intro later between before heq
  cases later with
  | nil =>
    obtain ⟨rfl, hlog⟩ := List.cons.inj heq
    by_contra hbetween
    exact hentry rfl (hlog ▸ mem_sinceFetch hbetween)
  | cons e later => exact h later between before (List.cons.inj heq).2

theorem Halted.cons (h : Halted log) (hentry : entry = .fetched → .told ∉ log) : Halted (entry :: log) := by
  intro later before heq
  cases later with
  | nil => exact List.not_mem_nil
  | cons e later =>
    obtain ⟨rfl, hlog⟩ := List.cons.inj heq
    rw [List.mem_cons, not_or]
    refine ⟨fun hfetched => hentry hfetched.symm ?_, h later before hlog⟩
    rw [hlog]
    exact List.mem_append_right _ List.mem_cons_self

end Log

section Kept

variable {w w' : WorkerLoop}

theorem head_fetches (h : w.stopping = false) :
    w.head = { w with beenNotified := false, fetchedCount := 0, phase := .fetching, log := .fetched :: w.log } := by
  rw [head, h]
  rfl

theorem head_ends (h : w.stopping = true) :
    w.head = { w with stopping := false, stopped := true, state := .stopped, phase := .resolved } := by
  rw [head, h]
  rfl

/-- The head of the loop begins a fetch, unless the loop was told to stop. -/
theorem sound_head (hnotified : .notified ∈ sinceFetch w.log → w.beenNotified = true) (hdelay : w.loopDelayPromise = none)
    (hstopped : w.stopped = false) (htold : .told ∈ w.log ↔ w.stopping = true) (hwoken : Woken w.log)
    (hhalted : Halted w.log) : Sound w.head := by
  cases hstopping : w.stopping with
  | false =>
    have hnot : .told ∉ w.log := by simp [htold, hstopping]
    rw [head_fetches hstopping]
    exact
      { notified := fun hin => by
          rw [sinceFetch_fetched] at hin
          cases hin
        delaying := by simp [hdelay]
        timed := by simp [hdelay]
        settled := by simp [hdelay]
        told := by simp [hnot, hstopping, hstopped]
        ended := by simp [hstopped]
        fresh := nofun
        woken := hwoken.cons nofun
        halted := hhalted.cons fun _ => hnot }
  | true =>
    rw [head_ends hstopping]
    exact
      { notified := hnotified
        delaying := by simp [hdelay]
        timed := by simp [hdelay]
        settled := by simp [hdelay]
        told := by simp [htold, hstopping]
        ended := by simp
        fresh := nofun
        woken := hwoken
        halted := hhalted }

theorem Sound.live (h : Sound w) (hphase : w.phase ≠ .resolved) : w.stopped = false := by
  rw [← Bool.not_eq_true, h.ended]
  exact hphase

/-- Before its end, a loop was told to stop just while it is stopping. -/
theorem Sound.told_iff (h : Sound w) (hphase : w.phase ≠ .resolved) : .told ∈ w.log ↔ w.stopping = true := by
  simp [h.told, h.live hphase]

theorem Sound.no_delay (h : Sound w) (hphase : w.phase ≠ .delaying) : w.loopDelayPromise = none := by
  rw [Ne, h.delaying] at hphase
  simpa using hphase

/-- The head, from a sound loop at a fetch or a batch. -/
theorem Sound.head (h : Sound w) (hphase : w.phase ≠ .resolved) (hdelaying : w.phase ≠ .delaying) : Sound w.head :=
  sound_head h.notified (h.no_delay hdelaying) (h.live hphase) (h.told_iff hphase) h.woken h.halted

theorem sound_round (h : Sound w) (hphase : w.phase ≠ .resolved) (hdelaying : w.phase ≠ .delaying)
    (resolveInterval : ℕ → ℚ) (duration : ℚ) : Sound (w.round resolveInterval duration) := by
  unfold round
  split_ifs with hdelay
  · simp only [Bool.and_eq_true, Bool.not_eq_true', decide_eq_true_eq] at hdelay
    obtain ⟨⟨hstopping, hnotified⟩, -⟩ := hdelay
    have hquiet : .notified ∉ sinceFetch w.log := fun hin => by
      rw [h.notified hin] at hnotified
      cases hnotified
    exact
      { notified := fun hin => by
          rw [sinceFetch_cons (by decide), List.mem_cons] at hin
          exact absurd (hin.resolve_left (by decide)) hquiet
        delaying := by simp
        timed := by
          rintro d hd -
          cases hd
          refine ⟨?_, hstopping, rfl⟩
          rw [sinceFetch_cons (by decide), List.mem_cons, not_or]
          exact ⟨by decide, hquiet⟩
        settled := by
          rintro d hd
          cases hd
          rfl
        told := by simpa using h.told
        ended := by
          rw [h.ended]
          exact iff_of_false hphase nofun
        fresh := nofun
        woken := h.woken.cons nofun
        halted := h.halted.cons nofun }
  · exact h.head hphase hdelaying

/-- An aborted delay has settled, and the clock does not hold its timer. -/
theorem abort_settled {d : LoopDelay} (haborted : d.timer = true → d.aborted = false) (hsettled : d.settled = !d.timer) :
    d.abort.timer = false ∧ d.abort.settled = true := by
  obtain ⟨timer, aborted, settled⟩ := d
  revert haborted hsettled
  cases timer <;> cases aborted <;> cases settled <;> decide

/-- The delay of a sound loop, aborted. -/
theorem Sound.abort (h : Sound w) {d : LoopDelay} (hd : w.loopDelayPromise.map LoopDelay.abort = some d) :
    d.timer = false ∧ d.settled = true := by
  obtain ⟨before, hbefore, rfl⟩ := Option.map_eq_some_iff.mp hd
  exact abort_settled (fun htimer => (h.timed before hbefore htimer).2.2) (h.settled before hbefore)

theorem sound_notify (h : Sound w) : Sound w.notify where
  notified _ := rfl
  delaying := h.delaying.trans (by simp [notify])
  timed d hd htimer := by
    rw [(h.abort hd).1] at htimer
    cases htimer
  settled d hd := by
    obtain ⟨htimer, hsettled⟩ := h.abort hd
    rw [htimer, hsettled]
    rfl
  told := by simpa [notify] using h.told
  ended := h.ended
  fresh hphase := by simpa [notify] using h.fresh hphase
  woken := h.woken.cons nofun
  halted := h.halted.cons nofun

theorem sound_stop (h : Sound w) : Sound w.stop := by
  have hnotified : .notified ∈ sinceFetch (.told :: w.log) → w.beenNotified = true := fun hin => by
    rw [sinceFetch_cons (by decide), List.mem_cons] at hin
    exact h.notified (hin.resolve_left (by decide))
  have hwoken : Woken (.told :: w.log) := h.woken.cons nofun
  have hhalted : Halted (.told :: w.log) := h.halted.cons nofun
  simp only [stop]
  split_ifs with hstopped
  · have hphase := h.ended.mp hstopped
    have hnone : w.loopDelayPromise = none := h.no_delay (by rw [hphase]; decide)
    exact
      { notified := hnotified
        delaying := h.delaying
        timed := by simp [hnone]
        settled := h.settled
        told := by simp [hstopped]
        ended := h.ended
        fresh := fun hcreated => by simpa using h.fresh hcreated
        woken := hwoken
        halted := hhalted }
  · exact
      { notified := hnotified
        delaying := h.delaying.trans (by simp)
        timed := fun d hd htimer => by
          rw [(h.abort hd).1] at htimer
          cases htimer
        settled := fun d hd => by
          obtain ⟨htimer, hsettled⟩ := h.abort hd
          rw [htimer, hsettled]
          rfl
        told := by simp
        ended := h.ended
        fresh := fun hcreated => by simpa using h.fresh hcreated
        woken := hwoken
        halted := hhalted }

/-- The loop goes on from a fetch or a batch. -/
theorem settle_cases {settlement : Settlement} {resolveInterval : ℕ → ℚ} {duration : ℚ}
    (hsettle : w.settle settlement resolveInterval duration = some w') :
    (w.phase = .fetching ∧ ∃ count, w' = { w with fetchedCount := count, phase := .handling }) ∨
    ((w.phase = .fetching ∨ w.phase = .handling) ∧ w' = w.round resolveInterval duration) ∨
    ((w.phase = .fetching ∨ w.phase = .handling) ∧ settlement = .rejected true ∧ w' = { w with phase := .rejected }) := by
  unfold settle at hsettle
  split at hsettle <;> rename_i hphase <;> cases hsettle
  · exact .inl ⟨hphase, _, rfl⟩
  · exact .inr (.inl ⟨.inl hphase, rfl⟩)
  · exact .inr (.inl ⟨.inr hphase, rfl⟩)
  · exact .inr (.inr ⟨.inl hphase, rfl, rfl⟩)
  · exact .inr (.inr ⟨.inr hphase, rfl, rfl⟩)
  · exact .inr (.inl ⟨.inl hphase, rfl⟩)
  · exact .inr (.inl ⟨.inr hphase, rfl⟩)

/-- A phase without a delay, which is not the end. -/
theorem Sound.phase (h : Sound w) {phase : LoopPhase} (hfrom : w.phase = .fetching ∨ w.phase = .handling)
    (hto : phase = .handling ∨ phase = .rejected) (count : ℕ) : Sound { w with fetchedCount := count, phase := phase } := by
  have hresolved : w.phase ≠ .resolved := by rcases hfrom with h | h <;> rw [h] <;> decide
  have hdelaying : w.phase ≠ .delaying := by rcases hfrom with h | h <;> rw [h] <;> decide
  have hnone := h.no_delay hdelaying
  exact
    { notified := h.notified
      delaying := by rcases hto with rfl | rfl <;> simp [hnone]
      timed := h.timed
      settled := h.settled
      told := h.told
      ended := by
        rw [h.ended]
        refine iff_of_false hresolved ?_
        rcases hto with rfl | rfl <;> nofun
      fresh := fun hcreated => by rcases hto with rfl | rfl <;> cases hcreated
      woken := h.woken
      halted := h.halted }

theorem sound_settle (h : Sound w) {settlement : Settlement} {resolveInterval : ℕ → ℚ} {duration : ℚ}
    (hsettle : w.settle settlement resolveInterval duration = some w') : Sound w' := by
  rcases settle_cases hsettle with ⟨hfrom, count, rfl⟩ | ⟨hfrom, rfl⟩ | ⟨hfrom, -, rfl⟩
  · exact h.phase (.inl hfrom) (.inl rfl) count
  · have hresolved : w.phase ≠ .resolved := by rcases hfrom with h | h <;> rw [h] <;> decide
    have hdelaying : w.phase ≠ .delaying := by rcases hfrom with h | h <;> rw [h] <;> decide
    exact sound_round h hresolved hdelaying resolveInterval duration
  · exact h.phase hfrom (.inr rfl) w.fetchedCount

/-- The timer of a delay fires, and so the loop was not notified since its last fetch. -/
theorem sound_fire (h : Sound w) {d : LoopDelay} (hd : w.loopDelayPromise = some d) (htimer : d.timer = true) :
    Sound { w with loopDelayPromise := some d.fire, log := .waited :: w.log } := by
  obtain ⟨hquiet, -, -⟩ := h.timed d hd htimer
  exact
    { notified := fun hin => by
        rw [sinceFetch_cons (by decide), List.mem_cons] at hin
        exact h.notified (hin.resolve_left (by decide))
      delaying := by simp [h.delaying, hd]
      timed := by
        rintro d' hd' htimer'
        cases hd'
        cases htimer'
      settled := by
        rintro d' hd'
        cases hd'
        rfl
      told := by simpa using h.told
      ended := h.ended
      fresh := fun hcreated => by simpa using h.fresh hcreated
      woken := h.woken.cons fun _ => hquiet
      halted := h.halted.cons nofun }

theorem sound_resume (h : Sound w) {d : LoopDelay} (hd : w.loopDelayPromise = some d) :
    Sound (WorkerLoop.head { w with loopDelayPromise := none }) := by
  have hphase : w.phase = .delaying := h.delaying.mpr (by rw [hd]; rfl)
  have hresolved : w.phase ≠ .resolved := by rw [hphase]; decide
  exact sound_head h.notified rfl (h.live hresolved) (h.told_iff hresolved) h.woken h.halted

theorem sound_start (h : Sound w) (hphase : w.phase = .created) : Sound w.start := by
  have hresolved : w.phase ≠ .resolved := by rw [hphase]; decide
  exact sound_head h.notified (h.no_delay (by rw [hphase]; decide)) (h.live hresolved) (h.told_iff hresolved) h.woken h.halted

theorem sound_step (h : Sound w) {s : Step} (hstep : w.step s = some w') : Sound w' := by
  cases s with
  | start =>
    obtain ⟨hphase, heq⟩ := Option.ite_none_right_eq_some.mp hstep
    cases heq
    exact sound_start h hphase
  | notify =>
    cases hstep
    exact sound_notify h
  | stop =>
    cases hstep
    exact sound_stop h
  | settle settlement resolveInterval duration => exact sound_settle h hstep
  | fire =>
    simp only [step] at hstep
    split at hstep
    · rename_i d hd
      obtain ⟨htimer, heq⟩ := Option.ite_none_right_eq_some.mp hstep
      cases heq
      exact sound_fire h hd htimer
    · cases hstep
  | resume =>
    simp only [step] at hstep
    split at hstep
    · rename_i d hd
      obtain ⟨-, heq⟩ := Option.ite_none_right_eq_some.mp hstep
      cases heq
      exact sound_resume h hd
    · cases hstep

theorem sound_steps (h : Sound w) {history : List Step} (hsteps : w.steps history = some w') : Sound w' := by
  induction history generalizing w with
  | nil =>
    cases hsteps
    exact h
  | cons s history ih =>
    obtain ⟨next, hstep, hrest⟩ := Option.bind_eq_some_iff.mp hsteps
    exact ih (sound_step h hstep) hrest

/-- A worker as it is constructed. -/
theorem sound_new : Sound {} where
  notified := nofun
  delaying := by decide
  timed := nofun
  settled := nofun
  told := by decide
  ended := by decide
  fresh := by decide
  woken := fun later between before heq => by simp at heq
  halted := fun later before heq => by simp at heq

end Kept

section Progress

variable {w w' : WorkerLoop} {s : Step}

/-- What a loop did stays in its log. -/
theorem log_suffix_head (w : WorkerLoop) : w.log <:+ w.head.log := by
  unfold head
  split_ifs
  · exact List.suffix_cons _ _
  · exact List.suffix_rfl

theorem log_suffix_round (w : WorkerLoop) (resolveInterval : ℕ → ℚ) (duration : ℚ) :
    w.log <:+ (w.round resolveInterval duration).log := by
  unfold round
  split_ifs
  · exact List.suffix_cons _ _
  · exact log_suffix_head w

theorem log_suffix_step (hstep : w.step s = some w') : w.log <:+ w'.log := by
  cases s with
  | start =>
    obtain ⟨-, heq⟩ := Option.ite_none_right_eq_some.mp hstep
    cases heq
    exact log_suffix_head { w with state := .active }
  | notify =>
    cases hstep
    exact List.suffix_cons _ _
  | stop =>
    cases hstep
    simp only [stop]
    split_ifs <;> exact List.suffix_cons _ _
  | settle settlement resolveInterval duration =>
    rcases settle_cases hstep with ⟨-, count, rfl⟩ | ⟨-, rfl⟩ | ⟨-, -, rfl⟩
    · exact List.suffix_rfl
    · exact log_suffix_round w resolveInterval duration
    · exact List.suffix_rfl
  | fire =>
    simp only [step] at hstep
    split at hstep
    · obtain ⟨-, heq⟩ := Option.ite_none_right_eq_some.mp hstep
      cases heq
      exact List.suffix_cons _ _
    · cases hstep
  | resume =>
    simp only [step] at hstep
    split at hstep
    · obtain ⟨-, heq⟩ := Option.ite_none_right_eq_some.mp hstep
      cases heq
      exact log_suffix_head { w with loopDelayPromise := none }
    · cases hstep

theorem fetches_le_steps {history : List Step} (hsteps : w.steps history = some w') : w.fetches ≤ w'.fetches := by
  induction history generalizing w with
  | nil =>
    cases hsteps
    exact le_rfl
  | cons s history ih =>
    obtain ⟨next, hstep, hrest⟩ := Option.bind_eq_some_iff.mp hsteps
    exact ((log_suffix_step hstep).sublist.count_le _).trans (ih hrest)

/-- A loop that nothing keeps from fetching: notified since its last fetch, and not told to stop. -/
structure Pending (w : WorkerLoop) : Prop where
  notified : .notified ∈ sinceFetch w.log
  began : .fetched ∈ w.log
  untold : .told ∉ w.log
  alive : w.phase ≠ .rejected

/-- A loop that was told to stop, once it was started. -/
structure Told (w : WorkerLoop) : Prop where
  told : .told ∈ w.log
  began : w.phase ≠ .created
  alive : w.phase ≠ .rejected

/-- A delay whose timer the clock does not hold lets the loop go on. -/
theorem goes_of_no_timer (h : Sound w) (hphase : w.phase = .delaying) (hno : ∀ d, w.loopDelayPromise = some d → d.timer = false) :
    w.Goes := by
  obtain ⟨d, hd⟩ := Option.isSome_iff_exists.mp (h.delaying.mp hphase)
  refine .inr (.inr ⟨d, hd, ?_⟩)
  rw [h.settled d hd, hno d hd]
  rfl

theorem Pending.no_timer (h : Sound w) (hpending : Pending w) {d : LoopDelay} (hd : w.loopDelayPromise = some d) : d.timer = false := by
  rw [← Bool.not_eq_true]
  exact fun htimer => (h.timed d hd htimer).1 hpending.notified

theorem Pending.not_stopping (h : Sound w) (hpending : Pending w) : w.stopping = false := by
  rw [← Bool.not_eq_true]
  exact fun hstopping => hpending.untold (h.told.mpr (.inl hstopping))

theorem Pending.goes (h : Sound w) (hpending : Pending w) : w.Goes := by
  cases hphase : w.phase with
  | created => exact absurd hpending.began (h.fresh hphase)
  | fetching => exact .inl hphase
  | handling => exact .inr (.inl hphase)
  | delaying => exact goes_of_no_timer h hphase fun d hd => hpending.no_timer h hd
  | resolved => exact absurd (h.told.mpr (.inr (h.ended.mpr hphase))) hpending.untold
  | rejected => exact absurd hphase hpending.alive

theorem Told.stopping (h : Sound w) (htold : Told w) (hphase : w.phase ≠ .resolved) : w.stopping = true :=
  (h.told_iff hphase).mp htold.told

theorem Told.no_timer (h : Sound w) (htold : Told w) {d : LoopDelay} (hd : w.loopDelayPromise = some d) : d.timer = false := by
  have hphase : w.phase = .delaying := h.delaying.mpr (by rw [hd]; rfl)
  have hstopping := htold.stopping h (by rw [hphase]; decide)
  rw [← Bool.not_eq_true]
  intro htimer
  rw [(h.timed d hd htimer).2.1] at hstopping
  cases hstopping

theorem Told.goes (h : Sound w) (htold : Told w) : w.phase = .resolved ∨ w.Goes := by
  cases hphase : w.phase with
  | created => exact absurd hphase htold.began
  | fetching => exact .inr (.inl hphase)
  | handling => exact .inr (.inr (.inl hphase))
  | delaying => exact .inr (goes_of_no_timer h hphase fun d hd => htold.no_timer h hd)
  | resolved => exact .inl rfl
  | rejected => exact absurd hphase htold.alive

theorem turns_pos (hphase : w.phase = .fetching ∨ w.phase = .handling) : 0 < turns w.phase := by
  rcases hphase with h | h <;> rw [h] <;> decide

/-- A step of a loop that is pending begins a fetch, or leaves it pending and nearer to its next turn. -/
theorem pending_step (h : Sound w) (hpending : Pending w) (hraises : s.raises = false) (hstops : s.stops = false)
    (hstep : w.step s = some w') :
    w.fetches < w'.fetches ∨ (Pending w' ∧ turns w'.phase + s.loops.toNat ≤ turns w.phase) := by
  have hstopping := hpending.not_stopping h
  have hmore : ∀ v : WorkerLoop, v.stopping = false → v.log = w.log → w.fetches < v.head.fetches := by
    intro v hv hlog
    rw [head_fetches hv, fetches, fetches, List.count_cons_self, hlog]
    exact Nat.lt_succ_self _
  cases s with
  | start =>
    obtain ⟨hphase, -⟩ := Option.ite_none_right_eq_some.mp hstep
    exact absurd hpending.began (h.fresh hphase)
  | notify =>
    cases hstep
    refine .inr ⟨⟨?_, List.mem_cons_of_mem _ hpending.began, ?_, hpending.alive⟩, le_rfl⟩
    · change .notified ∈ sinceFetch (.notified :: w.log)
      rw [sinceFetch_cons (by decide)]
      exact List.mem_cons_self
    · change .told ∉ .notified :: w.log
      rw [List.mem_cons, not_or]
      exact ⟨by decide, hpending.untold⟩
  | stop => cases hstops
  | settle settlement resolveInterval duration =>
    rcases settle_cases hstep with ⟨hphase, count, rfl⟩ | ⟨-, rfl⟩ | ⟨-, hrejected, -⟩
    · refine .inr ⟨⟨hpending.notified, hpending.began, hpending.untold, nofun⟩, ?_⟩
      rw [hphase]
      exact le_rfl
    · -- a notified loop begins no delay
      left
      have hround : w.round resolveInterval duration = w.head := by
        rw [round, h.notified hpending.notified]
        simp
      rw [hround]
      exact hmore w hstopping rfl
    · rw [hrejected] at hraises
      cases hraises
  | fire =>
    simp only [step] at hstep
    split at hstep
    · rename_i d hd
      obtain ⟨htimer, -⟩ := Option.ite_none_right_eq_some.mp hstep
      rw [hpending.no_timer h hd] at htimer
      cases htimer
    · cases hstep
  | resume =>
    simp only [step] at hstep
    split at hstep
    · obtain ⟨-, heq⟩ := Option.ite_none_right_eq_some.mp hstep
      cases heq
      exact .inl (hmore _ hstopping rfl)
    · cases hstep

/-- A step of a loop that was told to stop leaves it nearer to its end. -/
theorem told_step (h : Sound w) (htold : Told w) (hraises : s.raises = false) (hstep : w.step s = some w') :
    Told w' ∧ turns w'.phase + s.loops.toNat ≤ turns w.phase := by
  have hends : ∀ v : WorkerLoop, v.stopping = true → v.log = w.log → 0 < turns w.phase →
      Told v.head ∧ turns v.head.phase + 1 ≤ turns w.phase := by
    intro v hv hlog hturns
    rw [head_ends hv]
    exact ⟨⟨hlog ▸ htold.told, nofun, nofun⟩, hturns⟩
  cases s with
  | start =>
    obtain ⟨hphase, -⟩ := Option.ite_none_right_eq_some.mp hstep
    exact absurd hphase htold.began
  | notify =>
    cases hstep
    exact ⟨⟨List.mem_cons_of_mem _ htold.told, htold.began, htold.alive⟩, le_rfl⟩
  | stop =>
    cases hstep
    simp only [stop]
    split_ifs <;> exact ⟨⟨List.mem_cons_self, htold.began, htold.alive⟩, le_rfl⟩
  | settle settlement resolveInterval duration =>
    rcases settle_cases hstep with ⟨hphase, count, rfl⟩ | ⟨hphase, rfl⟩ | ⟨-, hrejected, -⟩
    · refine ⟨⟨htold.told, nofun, nofun⟩, ?_⟩
      rw [hphase]
      exact le_rfl
    · have hresolved : w.phase ≠ .resolved := by rcases hphase with h | h <;> rw [h] <;> decide
      have hstopping := htold.stopping h hresolved
      have hround : w.round resolveInterval duration = w.head := by
        rw [round, hstopping]
        simp
      rw [hround]
      exact hends w hstopping rfl (turns_pos hphase)
    · rw [hrejected] at hraises
      cases hraises
  | fire =>
    simp only [step] at hstep
    split at hstep
    · rename_i d hd
      obtain ⟨htimer, -⟩ := Option.ite_none_right_eq_some.mp hstep
      rw [htold.no_timer h hd] at htimer
      cases htimer
    · cases hstep
  | resume =>
    simp only [step] at hstep
    split at hstep
    · rename_i d hd
      obtain ⟨-, heq⟩ := Option.ite_none_right_eq_some.mp hstep
      cases heq
      have hphase : w.phase = .delaying := h.delaying.mpr (by rw [hd]; rfl)
      have hstopping := htold.stopping h (by rw [hphase]; decide)
      exact hends { w with loopDelayPromise := none } hstopping rfl (by rw [hphase]; decide)
    · cases hstep

/-- How often the loop goes on in a run. -/
def loopSteps (history : List Step) : ℕ := (history.map fun s => s.loops.toNat).sum

theorem fetches_of_pending (h : Sound w) (hpending : Pending w) {rest : List Step}
    (hcalm : ∀ s ∈ rest, s.raises = false ∧ s.stops = false) (hsteps : w.steps rest = some w')
    (hturns : turns w.phase ≤ loopSteps rest) : w.fetches < w'.fetches := by
  induction rest generalizing w with
  | nil =>
    rcases hpending.goes h with hphase | hphase | ⟨d, hd, -⟩
    · rw [hphase] at hturns
      exact absurd hturns (by decide)
    · rw [hphase] at hturns
      exact absurd hturns (by decide)
    · rw [h.delaying.mpr (by rw [hd]; rfl)] at hturns
      exact absurd hturns (by decide)
  | cons s rest ih =>
    obtain ⟨next, hstep, hrest⟩ := Option.bind_eq_some_iff.mp hsteps
    obtain ⟨hraises, hstops⟩ := hcalm s List.mem_cons_self
    rcases pending_step h hpending hraises hstops hstep with hmore | ⟨hnext, hnearer⟩
    · exact hmore.trans_le (fetches_le_steps hrest)
    · have hsum : loopSteps (s :: rest) = s.loops.toNat + loopSteps rest := List.sum_cons
      have hle : w.fetches ≤ next.fetches := (log_suffix_step hstep).sublist.count_le _
      exact hle.trans_lt (ih (sound_step h hstep) hnext (fun s hs => hcalm s (List.mem_cons_of_mem _ hs)) hrest (by omega))

theorem resolved_of_told (h : Sound w) (htold : Told w) {rest : List Step} (hcalm : ∀ s ∈ rest, s.raises = false)
    (hsteps : w.steps rest = some w') (hturns : turns w.phase ≤ loopSteps rest) : w'.phase = .resolved := by
  induction rest generalizing w with
  | nil =>
    cases hsteps
    rcases htold.goes h with hphase | hphase | hphase | ⟨d, hd, -⟩
    · exact hphase
    · rw [hphase] at hturns
      exact absurd hturns (by decide)
    · rw [hphase] at hturns
      exact absurd hturns (by decide)
    · rw [h.delaying.mpr (by rw [hd]; rfl)] at hturns
      exact absurd hturns (by decide)
  | cons s rest ih =>
    obtain ⟨next, hstep, hrest⟩ := Option.bind_eq_some_iff.mp hsteps
    obtain ⟨hnext, hnearer⟩ := told_step h htold (hcalm s List.mem_cons_self) hstep
    have hsum : loopSteps (s :: rest) = s.loops.toNat + loopSteps rest := List.sum_cons
    exact ih (sound_step h hstep) hnext (fun s hs => hcalm s (List.mem_cons_of_mem _ hs)) hrest (by omega)

/-- A loop whose run was rejected does nothing more. -/
theorem rejected_step (h : w.phase = .rejected) (hnone : w.loopDelayPromise = none) (hstep : w.step s = some w') :
    w'.phase = .rejected ∧ w'.loopDelayPromise = none ∧ w'.fetches = w.fetches := by
  cases s with
  | start =>
    obtain ⟨hphase, -⟩ := Option.ite_none_right_eq_some.mp hstep
    rw [h] at hphase
    cases hphase
  | notify =>
    cases hstep
    exact ⟨h, by simp [notify, hnone], by simp [notify, fetches]⟩
  | stop =>
    cases hstep
    simp only [stop]
    split_ifs <;> exact ⟨h, by simp [hnone], by simp [fetches]⟩
  | settle settlement resolveInterval duration =>
    rcases settle_cases hstep with ⟨hphase, -⟩ | ⟨hphase, -⟩ | ⟨hphase, -⟩ <;> simp [h] at hphase
  | fire =>
    simp only [step, hnone] at hstep
    cases hstep
  | resume =>
    simp only [step, hnone] at hstep
    cases hstep

theorem rejected_steps (h : w.phase = .rejected) (hnone : w.loopDelayPromise = none) {rest : List Step}
    (hsteps : w.steps rest = some w') : w'.phase = .rejected ∧ w'.fetches = w.fetches := by
  induction rest generalizing w with
  | nil =>
    cases hsteps
    exact ⟨h, rfl⟩
  | cons s rest ih =>
    obtain ⟨next, hstep, hrest⟩ := Option.bind_eq_some_iff.mp hsteps
    obtain ⟨hphase, hnext, hfetches⟩ := rejected_step h hnone hstep
    obtain ⟨hend, hsame⟩ := ih hphase hnext hrest
    exact ⟨hend, hsame.trans hfetches⟩

/-- Where no error is reported by a throw, the run is not rejected. -/
theorem alive_step (h : w.phase ≠ .rejected) (hraises : s.raises = false) (hstep : w.step s = some w') : w'.phase ≠ .rejected := by
  have hhead : ∀ v : WorkerLoop, v.head.phase ≠ .rejected := by
    intro v
    unfold head
    split_ifs <;> nofun
  cases s with
  | start =>
    obtain ⟨-, heq⟩ := Option.ite_none_right_eq_some.mp hstep
    cases heq
    exact hhead _
  | notify =>
    cases hstep
    exact h
  | stop =>
    cases hstep
    simp only [stop]
    split_ifs <;> exact h
  | settle settlement resolveInterval duration =>
    rcases settle_cases hstep with ⟨-, count, rfl⟩ | ⟨-, rfl⟩ | ⟨-, hrejected, -⟩
    · nofun
    · unfold round
      split_ifs
      · nofun
      · exact hhead w
    · rw [hrejected] at hraises
      cases hraises
  | fire =>
    simp only [step] at hstep
    split at hstep
    · obtain ⟨-, heq⟩ := Option.ite_none_right_eq_some.mp hstep
      cases heq
      exact h
    · cases hstep
  | resume =>
    simp only [step] at hstep
    split at hstep
    · obtain ⟨-, heq⟩ := Option.ite_none_right_eq_some.mp hstep
      cases heq
      exact hhead _
    · cases hstep

theorem alive_steps (h : w.phase ≠ .rejected) {history : List Step} (hcalm : ∀ s ∈ history, s.raises = false)
    (hsteps : w.steps history = some w') : w'.phase ≠ .rejected := by
  induction history generalizing w with
  | nil =>
    cases hsteps
    exact h
  | cons s history ih =>
    obtain ⟨next, hstep, hrest⟩ := Option.bind_eq_some_iff.mp hsteps
    exact ih (alive_step h (hcalm s List.mem_cons_self) hstep) (fun s hs => hcalm s (List.mem_cons_of_mem _ hs)) hrest

/-- Where no error is reported by a throw, no delay is waited out between a notification and the next fetch, which the
loop begins as soon as what it awaits has settled; and a loop that was told to stop fetches no more and resolves. -/
theorem wake_up_kept {history : List Step} (h : steps {} history = some w) (hcalm : ∀ s ∈ history, s.raises = false) :
    (∀ later between before, w.log = later ++ .waited :: (between ++ .notified :: before) → .fetched ∈ between) ∧
    (.notified ∈ sinceFetch w.log → .fetched ∈ w.log → .told ∉ w.log →
      w.Goes ∧ ∀ rest w', (∀ s ∈ rest, s.raises = false ∧ s.stops = false) → w.steps rest = some w' →
        turns w.phase ≤ loopSteps rest → w.fetches < w'.fetches) ∧
    (∀ later before, w.log = later ++ .told :: before → .fetched ∉ later) ∧
    (.told ∈ w.log → w.phase ≠ .created →
      (w.phase = .resolved ∨ w.Goes) ∧ ∀ rest w', (∀ s ∈ rest, s.raises = false) → w.steps rest = some w' →
        turns w.phase ≤ loopSteps rest → w'.phase = .resolved) := by
  have hsound := sound_steps sound_new h
  have halive : w.phase ≠ .rejected := alive_steps (by decide) hcalm h
  refine ⟨hsound.woken, fun hnotified hbegan huntold => ?_, hsound.halted, fun htold hbegan => ?_⟩
  · have hpending : Pending w := ⟨hnotified, hbegan, huntold, halive⟩
    exact ⟨hpending.goes hsound, fun rest w' hrest hsteps hturns => fetches_of_pending hsound hpending hrest hsteps hturns⟩
  · have htold' : Told w := ⟨htold, hbegan, halive⟩
    exact ⟨htold'.goes hsound, fun rest w' hrest hsteps hturns => resolved_of_told hsound htold' hrest hsteps hturns⟩

/-- A worker that is notified at its delay fetches as soon as it goes on. -/
theorem wake_up_kept_at_delay :
    ∃ w, steps {} [.start, .settle (.jobs none) (fun _ => 2000) 5, .notify] = some w ∧ w.Goes ∧
      ∀ w', w.steps [.resume] = some w' → w.fetches < w'.fetches := by
  have hrun : (steps {} [.start, .settle (.jobs none) (fun _ => 2000) 5, .notify]).any (fun w =>
      decide (.notified ∈ sinceFetch w.log) && decide (.fetched ∈ w.log) && decide (.told ∉ w.log) &&
        decide (turns w.phase ≤ 1)) = true := by
    decide +kernel
  obtain ⟨w, hw, hlog⟩ := (Option.any_eq_true _ _).mp hrun
  simp only [Bool.and_eq_true, decide_eq_true_eq] at hlog
  obtain ⟨⟨⟨hnotified, hbegan⟩, huntold⟩, hturns⟩ := hlog
  obtain ⟨hgoes, hfetches⟩ := (wake_up_kept hw (by simp [Step.raises])).2.1 hnotified hbegan huntold
  exact ⟨w, hw, hgoes, fun w' hresume => hfetches [.resume] w' (by simp [Step.raises, Step.stops]) hresume hturns⟩

/-- A fetch that fails beside a notification, with no listener for the error: the worker never fetches again. -/
theorem wake_up_lost :
    ∃ w, steps {} [.start, .notify, .settle (.rejected true) (fun _ => 2000) 5] = some w ∧
      .notified ∈ sinceFetch w.log ∧ .fetched ∈ w.log ∧ .told ∉ w.log ∧
      ∀ rest w', w.steps rest = some w' → w'.fetches = w.fetches := by
  refine ⟨{ state := .active, beenNotified := true, phase := .rejected, log := [.notified, .fetched] }, rfl, by decide, by decide,
    by decide, fun rest w' hrest => ?_⟩
  exact (rejected_steps rfl rfl hrest).2

end Progress

end WorkerLoop

end PgBoss
