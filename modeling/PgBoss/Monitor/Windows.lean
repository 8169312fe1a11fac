import PgBoss.Monitor.Throughput

/-!
# Throughput windows

`delta_on` only moves forward, and a pass whose window starts from the `delta_on` it then moves takes
in what lies between the two, or, past its reset threshold, nothing. A snapshot holds every stamp that
lies before the end of its pass's window, so the counters hold each stamp in a window once.
-/

namespace PgBoss

open Tiling

variable {ι : Type*} [DecidableEq ι] {name : String} {may : CountedPass → Prop} {w w' w₀ : MonitorWorld ι}
variable {p : CountedPass} {x d : ℤ}

namespace CountedPass

theorem mem_windowFrom {deltaOn : Option ℤ} :
    x ∈ p.windowFrom deltaOn ↔ ∃ b, deltaOn = some b ∧ p.stop < b + p.resetMax ∧ x ∈ Set.Ico b p.stop := by
  cases deltaOn with
  | none => simp [windowFrom, deltaWindowStart, inWindow]
  | some b =>
    by_cases hstart : b > p.stop - p.resetMax
    · have hnear : p.stop < b + p.resetMax := by omega
      simp [windowFrom, deltaWindowStart, inWindow, hstart, hnear]
    · have hfar : ¬ p.stop < b + p.resetMax := by omega
      simp [windowFrom, deltaWindowStart, inWindow, hstart, hfar]

/-- The window starts from the `delta_on` that the pass moves, or is empty as one from there is, and is not
as wide as the reset threshold to the microsecond. -/
structure Fresh (p : CountedPass) : Prop where
  window : p.window = p.windowFrom p.before
  width : ∀ b, p.before = some b → p.stop ≠ b + p.resetMax

/-- A pass is as it should be where `delta_on` has not moved since its snapshot. -/
theorem fresh_of_unmoved (hseen : p.seenOn = p.before) (hwidth : ∀ b, p.before = some b → p.stop ≠ b + p.resetMax) :
    p.Fresh where
  window := by rw [window, hseen]
  width := hwidth

/-- What a counted pass does to `delta_on`. -/
def move (p : CountedPass) : Move ℤ where
  before := p.before
  after := p.after
  taken := p.window
  passed := p.gap

theorem before_le_after {b : ℤ} (hbefore : p.before = some b) : b ≤ p.after := by
  rw [after, hbefore]
  exact le_max_left b p.stop

theorem stop_le_after : p.stop ≤ p.after := by
  rw [after]
  cases p.before with
  | none => exact le_rfl
  | some b => exact le_max_right b p.stop

theorem Fresh.fits (h : p.Fresh) : p.move.Fits where
  forward _ hbefore := before_le_after hbefore
  behind x hx := by
    obtain ⟨b, -, -, hin⟩ := mem_windowFrom.mp hx
    exact hin.2.trans_le stop_le_after
  ahead b hbefore x hx := by
    have hbefore : p.before = some b := hbefore
    have hx : x ∈ p.window := hx
    rw [h.window, mem_windowFrom] at hx
    obtain ⟨b', hb', -, hin⟩ := hx
    obtain rfl := Option.some.inj (hbefore.symm.trans hb')
    exact hin.1
  whole b hbefore x hx := by
    have hbefore : p.before = some b := hbefore
    have hstop : x < p.stop := by
      have hafter : x < p.after := hx.2
      rw [after, hbefore] at hafter
      exact (lt_max_iff.mp hafter).resolve_left (not_lt.mpr hx.1)
    rcases lt_trichotomy p.stop (b + p.resetMax) with hnear | hequal | hfar
    · refine .inl ?_
      change x ∈ p.window
      rw [h.window, mem_windowFrom]
      exact ⟨b, hbefore, hnear, hx.1, hstop⟩
    · exact absurd hequal (h.width b hbefore)
    · exact .inr ⟨b, hbefore, hfar, hx.1, hstop⟩

end CountedPass

section Tally

variable {kind : StampKind} {key : JobKey} {stamp : ℤ} {start : Option ℤ} {stop : ℤ} {jobs : List Job} {j : Job}

/-- A counted row has its stamp in the window. -/
theorem mem_countedIn : j ∈ countedIn name kind start stop jobs ↔
    j ∈ jobs ∧ j.name = name ∧ ∃ c, j.stamped kind = some c ∧ inWindow start stop (some c) = true := by
  cases kind with
  | creation => simp [countedIn, createdIn, Job.stamped]
  | finish =>
    simp only [countedIn, finishedIn, List.mem_append, List.mem_filter, Bool.and_eq_true, decide_eq_true_eq, Job.stamped]
    constructor
    · rintro (⟨hj, ⟨hname, hstate⟩, hin⟩ | ⟨hj, ⟨hname, hstate⟩, hin⟩)
      all_goals
        cases hon : j.completedOn with
        | none => simp [hon, inWindow] at hin
        | some c => exact ⟨hj, hname, c, by simp [hstate], hon ▸ hin⟩
    · rintro ⟨hj, hname, c, hc, hin⟩
      obtain ⟨hstate, hon⟩ := Option.ite_none_right_eq_some.mp hc
      rw [hon]
      exact hstate.imp (fun h => ⟨hj, ⟨hname, h⟩, hin⟩) fun h => ⟨hj, ⟨hname, h⟩, hin⟩

/-- No row is counted twice. -/
theorem countedIn_nodup (hkeys : (jobs.map Job.jobKey).Nodup) :
    ((countedIn name kind start stop jobs).map Job.jobKey).Nodup := by
  cases kind with
  | creation => exact hkeys.sublist (List.filter_sublist.map _)
  | finish =>
    rw [countedIn, List.map_append]
    refine List.nodup_append'.mpr ⟨hkeys.sublist (List.filter_sublist.map _), hkeys.sublist (List.filter_sublist.map _), ?_⟩
    intro key hcompleted hfailed
    obtain ⟨a, ha, rfl⟩ := List.mem_map.mp hcompleted
    obtain ⟨b, hb, hkey⟩ := List.mem_map.mp hfailed
    simp only [finishedIn, List.mem_filter, Bool.and_eq_true, decide_eq_true_eq] at ha hb
    obtain rfl := List.inj_on_of_nodup_map hkeys hb.1 ha.1 hkey
    exact nomatch ha.2.1.2.symm.trans hb.2.1.2

/-- One row has a key. -/
theorem countP_key {q : Job → Bool} (hkeys : (jobs.map Job.jobKey).Nodup) (hj : j ∈ jobs) (hq : q j = true)
    (hkey : ∀ i ∈ jobs, q i = true → i.jobKey = j.jobKey) : jobs.countP q = 1 := by
  have hperm : (jobs.filter q).Perm [j] := by
    refine (List.perm_ext_iff_of_nodup ((List.Nodup.of_map _ hkeys).filter _) (List.nodup_singleton _)).mpr fun i => ?_
    rw [List.mem_filter, List.mem_singleton]
    constructor
    · exact fun ⟨hi, hqi⟩ => List.inj_on_of_nodup_map hkeys hi hj (hkey i hi hqi)
    · rintro rfl
      exact ⟨hj, hq⟩
  rw [List.countP_eq_length_filter, hperm.length_eq]
  rfl

/-- A stamp outside the window is not counted. -/
theorem CountedPass.tally_eq_zero (hstamp : stamp ∉ p.window) : p.tally name kind key stamp = 0 := by
  rw [tally, List.countP_eq_zero]
  intro j hj hcounted
  obtain ⟨-, -, c, hc, hin⟩ := mem_countedIn.mp hj
  simp only [Bool.and_eq_true, decide_eq_true_eq, hc, Option.some.injEq] at hcounted
  obtain ⟨-, rfl⟩ := hcounted
  exact hstamp hin

/-- A stamp in the window is counted once, where the snapshot holds it. -/
theorem CountedPass.tally_eq_one (hkeys : (p.seen.map Job.jobKey).Nodup) (hstamp : stamp ∈ p.window) (hj : j ∈ p.seen)
    (hname : j.name = name) (hstamped : j.stamped kind = some stamp) : p.tally name kind j.jobKey stamp = 1 := by
  rw [tally]
  refine countP_key (countedIn_nodup hkeys) (mem_countedIn.mpr ⟨hj, hname, stamp, hstamped, hstamp⟩) (by simp [hstamped]) ?_
  intro i _ hi
  simp only [Bool.and_eq_true, decide_eq_true_eq] at hi
  exact hi.1

end Tally

end PgBoss
