import PgBoss.Bam.Stop

/-!
# What a stop leaves behind

A statement that still waits for its connection when `stop` marks the row has its signal aborted in
the same stretch, so none starts after that. A row is left in progress by one failure only: that of a
statement whose connection was dropped as it ran, or of a checkout that fails once `stop` has ended the
statement it was for. The latter is the condition below: without it nothing of the row need have run.
-/

namespace PgBoss

namespace BamProcess

variable (host : BamHost) (entry : BamEntry)

/-- The row is as the claim left it. -/
def RowClaimed (w : BamProcess) : Prop :=
  ∀ x ∈ w.rows, x.id = entry.found.id → x = claimBamRow entry.stamp entry.found

/-- No statement of the row was sent. -/
def Unsent (w : BamProcess) : Prop := ∀ p stopped, .sent p stopped ∉ w.log

/-- The command ran to its end and passed the check, or its index was found valid. -/
def Built (w : BamProcess) : Prop := .foundValid ∈ w.log ∨ .returned .command ∈ w.log ∧ .passed ∈ w.log

/-- A concurrent index statement was sent, and its connection dropped. -/
def LeftRunning (w : BamProcess) : Prop :=
  ∃ p, .sent p false ∈ w.log ∧ .dropped p ∈ w.log ∧ isConcurrentIndexCommand (host.sql entry p) = true

/-- How a row may be left. -/
def Accounted (w : BamProcess) (x : BamRow) : Prop :=
  (x.status = .completed ∧ w.Built) ∨ x.status = .failed ∨ (x = entry.found ∧ w.Unsent) ∨
    (x.status = .inProgress ∧ w.LeftRunning host entry)

/-- Stop has not ended the concurrent index statement that a checkout is for. -/
def NotAbandoned (w : BamProcess) : Prop := ¬ (w.running.ended = true ∧ w.running.ending = .abandon)

/-- The statement would end as `#execute` chose, or a cancel of it raised. -/
def EndsAs (w : BamProcess) (p : Purpose) : Prop :=
  w.running.ending = host.ending (host.sql entry p) ∨ w.running.ending = .wait

/-- What holds while the runner waits. -/
def At (w : BamProcess) : RunnerWait → Prop
  | .claim => w.RowClaimed entry ∧ w.Unsent ∧ w.running.stopped = false
  | .release => w.RowClaimed entry ∧ w.Unsent
  | .probe => w.RowClaimed entry ∧ w.running.ending = .wait
  | .checkout p => w.RowClaimed entry ∧ host.ownPool = true ∧ w.EndsAs host entry p ∧
      (w.running.stopped = false → w.running.ending = host.ending (host.sql entry p)) ∧
      (w.running.stopped = true → w.running.aborted = true)
  | .statement p => w.RowClaimed entry ∧ .sent p false ∈ w.log ∧ w.EndsAs host entry p ∧
      (w.running.ending = .abandon → w.running.aborted = true → w.running.ended = true) ∧
      (w.running.ending = .abandon → w.running.ended = true → .dropped p ∈ w.log)
  | .check => w.RowClaimed entry ∧ w.running.ending = .wait ∧ .returned .command ∈ w.log
  | .setCompleted => w.RowClaimed entry ∧ w.Built
  | .setFailed _ => w.RowClaimed entry
  | .done => ∀ x ∈ w.rows, x.id = entry.found.id → w.Accounted host entry x

/-- What every reachable state keeps. -/
structure Kept (w : BamProcess) : Prop where
  retry : cancelRetryMs ≤ w.now
  untouched : w.running.stopped = false → w.running.ended = false ∧ w.running.aborted = false ∧ w.endedAt = 0
  cancelling : w.stop = .cancel → w.running.stopped = true ∧ (w.running.ending = .cancel ∨ w.running.ending = .wait)
  sent : ∀ p stopped, .sent p stopped ∈ w.log → stopped = false
  at' : w.At host entry w.runner
  resolved : w.stop = .resolved → w.runner = .done

variable {host entry} {w w' w₀ : BamProcess}

theorem Kept.at_runner (h : w.Kept host entry) {r : RunnerWait} (hrunner : w.runner = r) : w.At host entry r :=
  hrunner ▸ h.at'

theorem Start.kept (h : w.Start entry) : w.Kept host entry := by
  obtain ⟨hrow, hnow, hfresh⟩ := h
  rw [hfresh]
  exact ⟨hnow, fun _ => ⟨rfl, rfl, rfl⟩, nofun, nofun, ⟨hrow, nofun, rfl⟩, nofun⟩

/-- An `#execute` ends in `'abandon'` for concurrent index statements alone, on a pool of ours. -/
theorem ending_eq_abandon {sql : String} (h : host.ending sql = .abandon) :
    isConcurrentIndexCommand sql = true ∧ host.ownPool = true := by
  unfold BamHost.ending at h
  split_ifs at h with hpool hcockroach hcockroach hconcurrent
  simp only [Bool.and_eq_true] at hconcurrent
  exact ⟨hconcurrent.2, by simpa using hpool⟩

/-- A statement of our own pool is ended by `stop` in some way. -/
theorem ending_ne_wait {sql : String} (h : host.ownPool = true) : host.ending sql ≠ .wait := by
  unfold BamHost.ending
  rw [h]
  split_ifs <;> simp_all

/-- A failure that is no stop's doing is recorded, and one that is leaves the statement under way. -/
theorem Kept.caught (h : w.Kept host entry) (hrunner : w.runner ≠ .done) (hrow : w.RowClaimed entry)
    (hleft : w.running.ended = true → w.running.ending = .abandon → w.LeftRunning host entry) (error : String) :
    (w.caught error).Kept host entry where
  retry := h.retry
  untouched := h.untouched
  cancelling := h.cancelling
  sent := h.sent
  at' := by
    unfold BamProcess.caught
    split
    case isTrue hended =>
      simp only [Bool.and_eq_true, decide_eq_true_eq] at hended
      intro x hx hid
      rw [hrow x hx hid]
      exact .inr (.inr (.inr ⟨rfl, hleft hended.1 hended.2⟩))
    case isFalse => exact hrow
  resolved hstop := absurd (h.resolved hstop) hrunner

/-- A statement that does not start is recorded as a failure. -/
theorem Kept.notStarted (h : w.Kept host entry) (hrunner : w.runner ≠ .done) (hrow : w.RowClaimed entry)
    (hstopped : w.running.stopped = true) : w.notStarted.Kept host entry where
  retry := h.retry
  untouched hnot := nomatch hnot.symm.trans hstopped
  cancelling _ := ⟨hstopped, .inr rfl⟩
  sent := h.sent
  at' := hrow
  resolved hstop := absurd (h.resolved hstop) hrunner

/-- A statement goes to the server only when `stop` has not marked the row. -/
theorem Kept.send (h : w.Kept host entry) (hrunner : w.runner ≠ .done) (hrow : w.RowClaimed entry)
    (hstopped : w.running.stopped = false) {p : Purpose} (hends : w.EndsAs host entry p) :
    (w.send p).Kept host entry where
  retry := h.retry
  untouched := h.untouched
  cancelling := h.cancelling
  sent q stopped hsent := by
    rcases List.mem_cons.mp hsent with hnew | hold
    · injection hnew with _ hstop
      exact hstop.trans hstopped
    · exact h.sent q stopped hold
  at' := by
    obtain ⟨hended, haborted, -⟩ := h.untouched hstopped
    refine ⟨hrow, ?_, hends, fun _ hnow => ?_, fun _ hnow => ?_⟩
    · rw [← hstopped]
      exact List.mem_cons_self
    · exact nomatch haborted.symm.trans hnow
    · exact nomatch hended.symm.trans hnow
  resolved hstop := absurd (h.resolved hstop) hrunner

theorem Kept.execute (h : w.Kept host entry) (hrunner : w.runner ≠ .done) (hrow : w.RowClaimed entry) (p : Purpose) :
    (w.execute host entry p).Kept host entry := by
  unfold BamProcess.execute
  split
  case isTrue hstopped => exact h.notStarted hrunner hrow hstopped
  case isFalse hstopped =>
    rw [Bool.not_eq_true] at hstopped
    -- the ending is chosen with nothing ended yet
    obtain ⟨hended, haborted, hendedAt⟩ := h.untouched hstopped
    have hchosen : Kept host entry
        { w with running := { w.running with ending := host.ending (host.sql entry p) }, runner := .setFailed "" } :=
      ⟨h.retry, h.untouched, fun hstop => (nomatch hstopped.symm.trans (h.cancelling hstop).1), h.sent, hrow,
        fun hstop => absurd (h.resolved hstop) hrunner⟩
    split
    case isTrue => exact hchosen.send nofun hrow hstopped (.inl rfl)
    case isFalse hpool =>
      rw [if_neg (by simp [haborted])]
      have hpool : host.ownPool = true := by simpa using hpool
      exact { hchosen with
        at' := ⟨hrow, hpool, .inl rfl, fun _ => rfl, fun hnow => nomatch hstopped.symm.trans hnow⟩
        resolved := fun hstop => absurd (h.resolved hstop) hrunner }

/-- The runner goes on to record that the command is built. -/
theorem Kept.setCompleted (h : w.Kept host entry) (hrunner : w.runner ≠ .done) (hrow : w.RowClaimed entry)
    {e : BamEvent} (hbuilt : e = .foundValid ∨ e = .passed ∧ .returned .command ∈ w.log) :
    Kept host entry { w with runner := .setCompleted, log := e :: w.log } where
  retry := h.retry
  untouched := h.untouched
  cancelling := h.cancelling
  sent p stopped hsent := by
    rcases List.mem_cons.mp hsent with hnew | hold
    · rcases hbuilt with rfl | ⟨rfl, -⟩ <;> cases hnew
    · exact h.sent p stopped hold
  at' := by
    refine ⟨hrow, ?_⟩
    rcases hbuilt with rfl | ⟨rfl, hreturned⟩
    · exact .inl List.mem_cons_self
    · exact .inr ⟨List.mem_cons_of_mem _ hreturned, List.mem_cons_self⟩
  resolved hstop := absurd (h.resolved hstop) hrunner

/-- An event that is no sending leaves what was sent as it was. -/
theorem Kept.returned (h : w.Kept host entry) {p : Purpose} (hrunner : w.runner = .statement p) :
    (w.returned host entry p).Kept host entry := by
  obtain ⟨hrow, -⟩ := h.at_runner hrunner
  have hnotDone : w.runner ≠ .done := by rw [hrunner]; nofun
  -- the statement is over, so there is nothing to end
  have hover : Kept host entry
      { w with running := { w.running with ending := .wait }, runner := .setFailed "", log := .returned p :: w.log } :=
    ⟨h.retry, h.untouched, fun hstop => ⟨(h.cancelling hstop).1, .inr rfl⟩, fun q stopped hsent => by
      rcases List.mem_cons.mp hsent with hnew | hold
      · cases hnew
      · exact h.sent q stopped hold, hrow, fun hstop => absurd (h.resolved hstop) hnotDone⟩
  cases p with
  | heal => exact hover.execute nofun hrow .command
  | command =>
    unfold BamProcess.returned
    dsimp only
    split
    · exact { hover with
        at' := ⟨hrow, rfl, List.mem_cons_self⟩
        resolved := fun hstop => absurd (h.resolved hstop) hnotDone }
    · exact hover.setCompleted nofun hrow (.inr ⟨rfl, List.mem_cons_self⟩)

theorem Kept.checked (h : w.Kept host entry) (hrunner : w.runner = .check) (invalid : Option Bool) (error : String) :
    (w.checked host invalid error).Kept host entry := by
  obtain ⟨hrow, hwait, hreturned⟩ := h.at_runner hrunner
  have hnotDone : w.runner ≠ .done := by rw [hrunner]; nofun
  unfold BamProcess.checked
  split
  · exact h.caught hnotDone hrow (fun _ habandon => nomatch hwait.symm.trans habandon) error
  · exact h.setCompleted hnotDone hrow (.inr ⟨rfl, hreturned⟩)

theorem Kept.probed (h : w.Kept host entry) (hrunner : w.runner = .probe) (invalid : Option Bool) :
    (w.probed host entry invalid).Kept host entry := by
  obtain ⟨hrow, -⟩ := h.at_runner hrunner
  have hnotDone : w.runner ≠ .done := by rw [hrunner]; nofun
  cases invalid with
  | none => exact h.execute hnotDone hrow .command
  | some invalid =>
    cases invalid with
    | false => exact h.setCompleted hnotDone hrow (.inl rfl)
    | true =>
      unfold BamProcess.probed
      dsimp only
      split
      · exact h.execute hnotDone hrow .command
      · exact h.execute hnotDone hrow .heal

theorem Kept.claimed (h : w.Kept host entry) (hrunner : w.runner = .claim) : (w.claimed host entry).Kept host entry := by
  obtain ⟨hrow, hunsent, hstopped⟩ := h.at_runner hrunner
  have hnotDone : w.runner ≠ .done := by rw [hrunner]; nofun
  unfold BamProcess.claimed
  split
  · exact { h with at' := ⟨hrow, hunsent⟩, resolved := fun hstop => absurd (h.resolved hstop) hnotDone }
  case isFalse hnotCalled =>
    have hstop : w.stop = .notCalled := not_not.mp hnotCalled
    have hfresh : Kept host entry { w with running := {} } :=
      { h with
        untouched := fun _ => ⟨rfl, rfl, (h.untouched hstopped).2.2⟩
        cancelling := fun hcancel => nomatch hstop.symm.trans hcancel
        at' := by
          rw [hrunner]
          exact ⟨hrow, hunsent, rfl⟩ }
    dsimp only
    split
    · exact { hfresh with at' := ⟨hrow, rfl⟩, resolved := fun hresolved => nomatch hstop.symm.trans hresolved }
    · exact hfresh.execute hnotDone hrow .command

theorem Kept.checkedOut (h : w.Kept host entry) {p : Purpose} (hrunner : w.runner = .checkout p) :
    (w.checkedOut p).Kept host entry := by
  obtain ⟨hrow, -, hends, -, haborted⟩ := h.at_runner hrunner
  have hnotDone : w.runner ≠ .done := by rw [hrunner]; nofun
  unfold BamProcess.checkedOut
  cases hstopped : w.running.stopped with
  | false =>
    rw [if_neg (by simp [(h.untouched hstopped).2.1])]
    exact h.send hnotDone hrow hstopped hends
  | true =>
    rw [if_pos (haborted hstopped)]
    exact h.notStarted hnotDone hrow hstopped

/-- A mark alone starts and ends nothing. A statement that waits for its connection has been ended before. -/
theorem At.mark {r : RunnerWait} (hat : w.At host entry r) (hclaim : r ≠ .claim)
    (haborted : ∀ p, r = .checkout p → w.running.aborted = true) :
    At host entry { w with running := { w.running with stopped := true } } r := by
  cases r with
  | claim => exact absurd rfl hclaim
  | checkout p =>
    obtain ⟨hrow, hpool, hends, -, -⟩ := hat
    exact ⟨hrow, hpool, hends, nofun, fun _ => haborted p rfl⟩
  | _ => exact hat

/-- An abort adds at most the drop of the statement under way to the log. -/
theorem abort_log (host : BamHost) (w : BamProcess) :
    (w.abort host).log = w.log ∨ ∃ p, (w.abort host).log = .dropped p :: w.log := by
  unfold abort
  dsimp only
  split
  · split
    · exact .inr ⟨_, rfl⟩
    · exact .inl rfl
  · exact .inl rfl

theorem mem_abort_log {e : BamEvent} (h : e ∈ w.log) : e ∈ (w.abort host).log := by
  rcases abort_log host w with hsame | ⟨p, hdropped⟩
  · exact hsame ▸ h
  · exact hdropped ▸ List.mem_cons_of_mem _ h

theorem of_sent_mem_abort_log {p : Purpose} {stopped : Bool} (h : .sent p stopped ∈ (w.abort host).log) :
    .sent p stopped ∈ w.log := by
  rcases abort_log host w with hsame | ⟨q, hdropped⟩
  · exact hsame ▸ h
  · rw [hdropped] at h
    exact (List.mem_cons.mp h).resolve_left nofun

/-- The first abort of a statement on our own pool drops its connection, unless the statement is to be cancelled. -/
theorem dropped_mem_abort_log {p : Purpose} (hrunner : w.runner = .statement p) (haborted : w.running.aborted = false)
    (hpool : host.ownPool = true) (hcancel : w.running.ending ≠ .cancel) : .dropped p ∈ (w.abort host).log := by
  unfold abort
  simp only [hrunner, haborted, hpool]
  rw [if_pos (by simp [hcancel])]
  exact List.mem_cons_self

/-- What an abort keeps, with the statement under way ended or a cancel of it on its way. -/
theorem Kept.aborted (h : w.Kept host entry) (hrunner : w.hasRunning = true) (hended : w.running.ended = false)
    {ended : Bool} (habandon : w.running.ending = .abandon → ended = true) :
    At host entry
      { w.abort host with running := { (w.abort host).running with stopped := true, ended := ended } } w.runner := by
  have hat := h.at'
  have hrunning : w.runner ≠ .claim ∧ w.runner ≠ .release ∧ w.runner ≠ .done := of_decide_eq_true hrunner
  cases hwaits : w.runner with
  | claim => exact absurd hwaits hrunning.1
  | release => exact absurd hwaits hrunning.2.1
  | done => exact absurd hwaits hrunning.2.2
  | probe =>
    rw [hwaits] at hat
    exact hat
  | setFailed error =>
    rw [hwaits] at hat
    exact hat
  | checkout p =>
    rw [hwaits] at hat
    obtain ⟨hrow, hpool, hends, -, -⟩ := hat
    exact ⟨hrow, hpool, hends, nofun, fun _ => rfl⟩
  | check =>
    rw [hwaits] at hat
    obtain ⟨hrow, hwait, hreturned⟩ := hat
    exact ⟨hrow, hwait, mem_abort_log hreturned⟩
  | setCompleted =>
    rw [hwaits] at hat
    obtain ⟨hrow, hbuilt⟩ := hat
    exact ⟨hrow, hbuilt.imp mem_abort_log (And.imp mem_abort_log mem_abort_log)⟩
  | statement p =>
    rw [hwaits] at hat
    obtain ⟨hrow, hsent, hends, hnotAborted, -⟩ := hat
    refine ⟨hrow, mem_abort_log hsent, hends, fun hending _ => habandon hending, fun hending _ => ?_⟩
    have hpool : host.ownPool = true := by
      rcases hends with hends | hwait
      · exact (ending_eq_abandon (hends.symm.trans hending)).2
      · exact nomatch hwait.symm.trans hending
    have hfirst : w.running.aborted = false := by
      by_contra haborted
      exact nomatch (hnotAborted hending (by simpa using haborted)).symm.trans hended
    exact dropped_mem_abort_log hwaits hfirst hpool (by rw [show w.running.ending = .abandon from hending]; nofun)

/-- Stop marks the row and ends the statement under way, whatever the runner waits for. -/
theorem Kept.endRunning (h : w.Kept host entry) (hrunner : w.hasRunning = true) (hended : w.running.ended = false)
    (hwait : w.running.ending ≠ .wait) (endedAt : ℕ) :
    (endRunning host { w with running := { w.running with stopped := true }, endedAt := endedAt }).Kept host entry := by
  have hnotDone : w.runner ≠ .done := (of_decide_eq_true hrunner).2.2
  have hsent : ∀ p stopped, .sent p stopped ∈ (w.abort host).log → stopped = false :=
    fun p stopped hsent => h.sent p stopped (of_sent_mem_abort_log hsent)
  unfold BamProcess.endRunning
  split
  · exact ⟨h.retry, nofun, nofun, hsent, h.aborted hrunner hended fun _ => rfl, nofun⟩
  case isFalse hcancel =>
    have hcancel : w.running.ending = .cancel := by
      cases hending : w.running.ending with
      | cancel => rfl
      | wait => exact absurd hending hwait
      | abandon => exact absurd (.inl hending) hcancel
      | drop => exact absurd (.inr hending) hcancel
    refine ⟨h.retry, nofun, fun _ => ⟨rfl, .inl hcancel⟩, hsent, ?_, nofun⟩
    exact h.aborted hrunner hended fun habandon => nomatch hcancel.symm.trans habandon

/-- Stop marks the row, and a statement that waits for its connection then does not start. -/
theorem Kept.woke (h : w.Kept host entry) (hstop : w.stop = .delay) : (w.woke host).Kept host entry := by
  unfold BamProcess.woke
  split
  case isTrue hdone => exact { h with cancelling := nofun, resolved := fun _ => hdone }
  case isFalse =>
    split
    case isFalse => exact h
    case isTrue hmark =>
      rw [Bool.and_eq_true] at hmark
      have hrunning := of_decide_eq_true hmark.2
      dsimp only
      split
      case isTrue hend =>
        simp only [Bool.and_eq_true, Bool.not_eq_true', decide_eq_true_eq] at hend
        exact h.endRunning hmark.2 hend.1.1 hend.1.2 w.now
      case isFalse hnotEnd =>
        refine ⟨h.retry, nofun, fun hcancel => (nomatch hstop.symm.trans hcancel), h.sent, ?_, h.resolved⟩
        refine h.at'.mark hrunning.1 fun p hwaits => ?_
        obtain ⟨-, hpool, -, hchosen, haborted⟩ := h.at_runner hwaits
        cases hstopped : w.running.stopped with
        | true => exact haborted hstopped
        | false =>
          -- the first wake past the deadline does end a statement that has an ending
          obtain ⟨hended, -, hendedAt⟩ := h.untouched hstopped
          have hwait : w.running.ending ≠ .wait := (hchosen hstopped).symm ▸ ending_ne_wait hpool
          have hretry := h.retry
          simp [hended, hwait, hendedAt, hretry] at hnotEnd

/-- A row that the update has written was the row of the claim. -/
theorem RowClaimed.of_mem_update (hrow : w.RowClaimed entry) {f : BamRow → BamRow} {x : BamRow}
    (hx : x ∈ updateBam entry.found.id f w.rows) (hid : x.id = entry.found.id) :
    x = f (claimBamRow entry.stamp entry.found) := by
  obtain ⟨x₀, hx₀, rfl⟩ := mem_updateBam.mp hx
  split at hid
  case isTrue hmatch => rw [if_pos hmatch, hrow x₀ hx₀ hmatch]
  case isFalse hmatch => exact absurd hid hmatch

/-- A release puts the row back as the claim found it. -/
theorem RowClaimed.eq_found (hrow : w.RowClaimed entry) {x : BamRow} (hx : x ∈ releaseBamCommand entry.claim w.rows)
    (hid : x.id = entry.found.id) : x = entry.found := by
  have hwritten := hrow.of_mem_update hx hid
  rw [if_pos (BamClaim.carriedBy_iff.mpr ⟨rfl, rfl⟩)] at hwritten
  exact hwritten

theorem Kept.cancelReturned (h : w.Kept host entry) (hstop : w.stop = .cancel) (cancelled : Bool) :
    Kept host entry { w with running := { w.running with ended := w.running.ended || cancelled }, stop := .delay } := by
  obtain ⟨hstopped, hending⟩ := h.cancelling hstop
  refine ⟨h.retry, fun hnot => (nomatch hnot.symm.trans hstopped), nofun, h.sent, ?_, nofun⟩
  have hat := h.at'
  show At host entry _ w.runner
  cases hwaits : w.runner with
  | statement p =>
    rw [hwaits] at hat
    obtain ⟨hrow, hsent, hends, -, -⟩ := hat
    have hnot : w.running.ending ≠ .abandon := by rcases hending with hending | hending <;> rw [hending] <;> nofun
    exact ⟨hrow, hsent, hends, fun habandon => absurd habandon hnot, fun habandon => absurd habandon hnot⟩
  | _ =>
    rw [hwaits] at hat
    exact hat

/-- After a cancel that raised, stop waits for the statement. -/
theorem Kept.cancelRaised (h : w.Kept host entry) (hstop : w.stop = .cancel) :
    Kept host entry { w with running := { w.running with ending := .wait }, stop := .delay } := by
  obtain ⟨hstopped, -⟩ := h.cancelling hstop
  refine ⟨h.retry, h.untouched, nofun, h.sent, ?_, nofun⟩
  have hat := h.at'
  show At host entry _ w.runner
  cases hwaits : w.runner with
  | probe =>
    rw [hwaits] at hat
    exact ⟨hat.1, rfl⟩
  | check =>
    rw [hwaits] at hat
    exact ⟨hat.1, rfl, hat.2.2⟩
  | checkout p =>
    rw [hwaits] at hat
    obtain ⟨hrow, hpool, -, -, haborted⟩ := hat
    exact ⟨hrow, hpool, .inr rfl, fun hnot => (nomatch hnot.symm.trans hstopped), haborted⟩
  | statement p =>
    rw [hwaits] at hat
    exact ⟨hat.1, hat.2.1, .inr rfl, nofun, nofun⟩
  | _ =>
    rw [hwaits] at hat
    exact hat

/-- The row is accounted for after any step but the failure of a checkout that stop has ended. -/
theorem Kept.step (h : w.Kept host entry) (hstep : w.Step host entry NotAbandoned w') : w'.Kept host entry := by
  have hat := h.at'
  cases hstep with
  | tick now hnow => exact { h with retry := hnow }
  | claimed hrunner => exact h.claimed hrunner
  | released hrunner =>
    rw [hrunner] at hat
    exact { h with
      at' := fun x hx hid => .inr (.inr (.inl ⟨hat.1.eq_found hx hid, hat.2⟩))
      resolved := fun _ => rfl }
  | probed invalid hrunner => exact h.probed hrunner invalid
  | probeFailed error hrunner =>
    have hwaiting : w.runner ≠ .done ∧ w.RowClaimed entry ∧ w.running.ending = .wait := by
      rcases hrunner with hrunner | hrunner <;> rw [hrunner] at hat ⊢
      · exact ⟨nofun, hat⟩
      · exact ⟨nofun, hat.1, hat.2.1⟩
    obtain ⟨hnotDone, hrow, hwait⟩ := hwaiting
    exact h.caught hnotDone hrow (fun _ habandon => nomatch hwait.symm.trans habandon) error
  | checkedOut p hrunner => exact h.checkedOut hrunner
  | checkoutFailed p error hrunner hmay =>
    rw [hrunner] at hat
    exact h.caught (by rw [hrunner]; nofun) hat.1 (fun hended habandon => absurd ⟨hended, habandon⟩ hmay) error
  | returned p hrunner => exact h.returned hrunner
  | statementFailed p error hrunner =>
    rw [hrunner] at hat
    obtain ⟨hrow, hsent, hends, -, hdropped⟩ := hat
    refine h.caught (by rw [hrunner]; nofun) hrow (fun hended habandon => ?_) error
    have hchosen : host.ending (host.sql entry p) = .abandon :=
      hends.elim (fun hends => hends.symm.trans habandon) fun hwait => nomatch hwait.symm.trans habandon
    exact ⟨p, hsent, hdropped habandon hended, (ending_eq_abandon hchosen).1⟩
  | checked invalid error hrunner => exact h.checked hrunner invalid error
  | completed at' hrunner =>
    rw [hrunner] at hat
    have hwritten : ∀ x ∈ setBamCompleted at' entry.found.id w.rows, x.id = entry.found.id → x.status = .completed :=
      fun x hx hid => by
        rw [hat.1.of_mem_update (f := fun x => { x with status := .completed, completedOn := some at', error := none })
          hx hid]
    exact { h with at' := fun x hx hid => .inl ⟨hwritten x hx hid, hat.2⟩, resolved := fun _ => rfl }
  | failed at' error hrunner =>
    rw [hrunner] at hat
    have hwritten : ∀ x ∈ setBamFailed at' entry.found.id error w.rows, x.id = entry.found.id → x.status = .failed :=
      fun x hx hid => by
        rw [RowClaimed.of_mem_update hat
          (f := fun x => { x with status := .failed, error := some error, completedOn := some at' }) hx hid]
    exact { h with at' := fun x hx hid => .inr (.inl (hwritten x hx hid)), resolved := fun _ => rfl }
  | stopCalled hstop => exact { h with cancelling := nofun, resolved := nofun }
  | expired hstop => exact { h with }
  | woke hstop => exact h.woke hstop
  | cancelReturned cancelled hstop => exact h.cancelReturned hstop cancelled
  | cancelRaised hstop => exact h.cancelRaised hstop

theorem Run.kept (hstart : w₀.Start entry) (hrun : Run host entry NotAbandoned w₀ w) : w.Kept host entry := by
  induction hrun with
  | refl => exact hstart.kept
  | tail _ hstep ih => exact ih.step hstep

/-- Where no checkout fails under a concurrent index statement that stop has ended: no statement starts after stop has
marked the row, and when stop resolves the row is completed, failed, put back, or under way on a dropped connection. -/
theorem stop_accounts (hstart : w₀.Start entry) (hrun : Run host entry NotAbandoned w₀ w) :
    (∀ p, .sent p true ∉ w.log) ∧
      (w.stop = .resolved → ∀ x ∈ w.rows, x.id = entry.found.id → w.Accounted host entry x) := by
  have hkept := hrun.kept hstart
  refine ⟨fun p hsent => (nomatch hkept.sent p true hsent), fun hstop => ?_⟩
  have hat := hkept.at'
  rw [hkept.resolved hstop] at hat
  exact hat

section Deadline

/-- Postgres with liveness, through our own pool. -/
def postgres : BamHost := ⟨"pgboss", true, false, false⟩

/-- A pending build, claimed. -/
def pendingBuild : BamEntry where
  found :=
    { id := 1
      version := 40
      tableName := "job_common"
      command := "CREATE INDEX CONCURRENTLY job_i14 ON job_common (name)"
      createdOn := 0 }
  stamp := 5

def justClaimed : BamProcess := { rows := [claimBamRow 5 pendingBuild.found], now := cancelRetryMs }

theorem justClaimed_start : justClaimed.Start pendingBuild := ⟨by decide, by decide, rfl⟩

/-- The build waits for a connection. -/
def connecting : BamProcess := { justClaimed with runner := .checkout .command, running := { ending := .abandon } }

theorem connecting_run (mayFail : BamProcess → Prop) : Run postgres pendingBuild mayFail justClaimed connecting := by
  have hclaimed : justClaimed.claimed postgres pendingBuild = connecting := by decide +kernel
  exact hclaimed ▸ .single (.claimed rfl)

/-- Stop is called, and its deadline passes. -/
theorem Run.expired {mayFail : BamProcess → Prop} {w₀ w : BamProcess} (h : Run host entry mayFail w₀ w)
    (hstop : w.stop = .notCalled) : Run host entry mayFail w₀ { w with stop := .delay, expired := true } :=
  (h.tail (.stopCalled hstop)).tail (.expired (.inl rfl))

/-- The connection is dropped under the build, and the row stays in progress. -/
theorem stop_accounts_dropped : ∃ w : BamProcess, w.stop = .resolved ∧ (∃ x ∈ w.rows, x.status = .inProgress) ∧
    (∀ p, .sent p true ∉ w.log) ∧
      (w.stop = .resolved → ∀ x ∈ w.rows, x.id = pendingBuild.found.id → w.Accounted postgres pendingBuild x) := by
  have hsent := (connecting_run NotAbandoned).tail (.checkedOut .command rfl)
  have hdropped := (Run.expired hsent rfl).tail (.woke rfl)
  have hfailed := hdropped.tail (.statementFailed .command "Connection terminated" rfl)
  have hresolved := hfailed.tail (.woke rfl)
  exact ⟨_, by decide +kernel, by decide +kernel, stop_accounts justClaimed_start hresolved⟩

/-- The deadline passes while the build waits for a connection, and then none is to be had: the row stays in progress,
with no statement sent. -/
theorem failedCheckout_leavesInProgress : ∃ w, Run postgres pendingBuild (fun _ => True) justClaimed w ∧
    w.stop = .resolved ∧ w.log = [] ∧ ¬ ∀ x ∈ w.rows, x.id = pendingBuild.found.id → w.Accounted postgres pendingBuild x := by
  have hended := (Run.expired (connecting_run fun _ => True) rfl).tail (.woke rfl)
  have hfailed := hended.tail (.checkoutFailed .command "timeout exceeded when trying to connect" rfl trivial)
  have hresolved := hfailed.tail (.woke rfl)
  refine ⟨_, hresolved, by decide +kernel, by decide +kernel, fun haccounted => ?_⟩
  rcases haccounted _ (List.mem_singleton.mpr rfl) rfl with ⟨hcompleted, -⟩ | hfailed | ⟨hfound, -⟩ | ⟨-, p, hsent, -⟩
  · cases hcompleted
  · cases hfailed
  · exact absurd hfound (by decide)
  · cases hsent

end Deadline

end BamProcess

end PgBoss
