import PgBoss.Bam.Runners

/-!
# One command at a time

A claim finds every row in progress stale, so no two rows in progress are within the window in which
a row is never stale. Without liveness that is all there is to staleness. With liveness a row past its
grace reads as live again while some backend holds the lock of a build on its table, be it for another
row's command.
-/

namespace PgBoss

namespace BamWorld

variable {ι : Type*} {useLiveness : Bool} {mayRecord : BamWorld ι → BamClaim → Prop} {w w' w₀ : BamWorld ι}

/-- The row was claimed too short a while ago to be stale. -/
def within (useLiveness : Bool) (now : ℤ) (r : BamRow) : Bool :=
  r.startedOn.any fun s => decide (s ≥ now - bamWindow useLiveness)

/-- What every reachable state keeps: one row in progress within the window at most, and runners that replaced a claim
replaced one that was past it. -/
structure OneWithin (useLiveness : Bool) (w : BamWorld ι) : Prop where
  ids : (w.rows.map BamRow.id).Nodup
  one : ∀ r ∈ w.rows, ∀ r' ∈ w.rows, r.status = .inProgress → r'.status = .inProgress →
    within useLiveness w.clock r = true → within useLiveness w.clock r' = true → r = r'
  replaced : ∀ i r, w.runners i = some r → r.found.status = .inProgress → within useLiveness w.clock r.found = false

theorem Start.oneWithin (h : w.Start) : w.OneWithin useLiveness where
  ids := h.ids
  one r hr _ _ hprogress := absurd hprogress (h.idle r hr)
  replaced i _ hr := nomatch (h.runners i).symm.trans hr

/-- Past the window stays past it. -/
theorem within_of_le {now now' : ℤ} {r : BamRow} (hnow : now ≤ now') (h : within useLiveness now r = false) :
    within useLiveness now' r = false := by
  cases hs : r.startedOn with
  | none => simp [within, hs]
  | some s =>
    simp only [within, hs, Option.any_some, decide_eq_false_iff_not] at *
    omega

theorem OneWithin.tick (h : w.OneWithin useLiveness) {now : ℤ} (hnow : w.clock ≤ now) :
    OneWithin useLiveness { w with clock := now } where
  ids := h.ids
  one r hr r' hr' hprogress hprogress' hwithin hwithin' := by
    have hback : ∀ x, within useLiveness now x = true → within useLiveness w.clock x = true := by
      intro x hx
      by_contra hold
      exact absurd hx (Bool.eq_false_iff.mp (within_of_le hnow (Bool.eq_false_iff.mpr hold)))
    exact h.one r hr r' hr' hprogress hprogress' (hback r hwithin) (hback r' hwithin')
  replaced i r hr hprogress := within_of_le hnow (h.replaced i r hr hprogress)

/-- A row that is not stale is within the window, or a build's lock is held on its table. -/
theorem bamNotStale_eq (useLiveness : Bool) (now : ℤ) (live : String → Bool) (r : BamRow) :
    bamNotStale useLiveness now live r = (within useLiveness now r || useLiveness && live r.tableName) := rfl

/-- An update that puts no row in progress within the window keeps one at most. -/
theorem OneWithin.update (h : w.OneWithin useLiveness) {id : Uuid} {f : BamRow → BamRow}
    (hrows : w'.rows = updateBam id f w.rows) (hclock : w'.clock = w.clock) (hf : ∀ x, (f x).id = x.id)
    (hback : ∀ x, (f x).status = .inProgress → within useLiveness w.clock (f x) = true →
      x.status = .inProgress ∧ within useLiveness w.clock x = true)
    (hrunners : ∀ i r, w'.runners i = some r → w.runners i = some r) : w'.OneWithin useLiveness where
  ids := by
    rw [hrows, updateBam_ids hf]
    exact h.ids
  one r hr r' hr' hprogress hprogress' hwithin hwithin' := by
    have hsource : ∀ x ∈ w'.rows, x.status = .inProgress → within useLiveness w.clock x = true →
        ∃ x₀ ∈ w.rows, (if x₀.id = id then f x₀ else x₀) = x ∧ x₀.status = .inProgress ∧
          within useLiveness w.clock x₀ = true := by
      intro x hx hxprogress hxwithin
      rw [hrows] at hx
      obtain ⟨x₀, hx₀, rfl⟩ := mem_updateBam.mp hx
      refine ⟨x₀, hx₀, rfl, ?_⟩
      split at hxprogress
      case isTrue hid =>
        rw [if_pos hid] at hxwithin
        exact hback x₀ hxprogress hxwithin
      case isFalse hid =>
        rw [if_neg hid] at hxwithin
        exact ⟨hxprogress, hxwithin⟩
    rw [hclock] at hwithin hwithin'
    obtain ⟨x, hx, rfl, hxprogress, hxwithin⟩ := hsource r hr hprogress hwithin
    obtain ⟨x', hx', rfl, hxprogress', hxwithin'⟩ := hsource r' hr' hprogress' hwithin'
    rw [h.one x hx x' hx' hxprogress hxprogress' hxwithin hxwithin']
  replaced i r hr hprogress := hclock ▸ h.replaced i r (hrunners i r hr) hprogress

variable [DecidableEq ι]

theorem OneWithin.claim (h : w.OneWithin useLiveness) {i : ι} {c : BamRow} (hc : c ∈ w.rows)
    (hstale : ∀ g ∈ w.rows, g.status = .inProgress → within useLiveness w.clock g = false) :
    (w.claim i c).OneWithin useLiveness where
  ids := by
    have hids : (w.claim i c).rows.map BamRow.id = w.rows.map BamRow.id := updateBam_ids fun _ => rfl
    rw [hids]
    exact h.ids
  one := by
    -- only the row claimed is in progress within the window
    have hclaimed : ∀ x ∈ (w.claim i c).rows, x.status = .inProgress → within useLiveness w.clock x = true →
        x = claimBamRow w.clock c := by
      intro x hx hprogress hwithin
      obtain ⟨x₀, hx₀, rfl⟩ := mem_updateBam.mp hx
      split at hprogress
      case isTrue hid =>
        rw [if_pos hid, List.inj_on_of_nodup_map h.ids hx₀ hc hid]
      case isFalse hid =>
        rw [if_neg hid, hstale x₀ hx₀ hprogress] at hwithin
        cases hwithin
    intro r hr r' hr' hprogress hprogress' hwithin hwithin'
    rw [hclaimed r hr hprogress hwithin, hclaimed r' hr' hprogress' hwithin']
  replaced k r hr hprogress := by
    rcases of_runners_update hr with ⟨-, hnew⟩ | ⟨-, hr⟩
    · obtain rfl := Option.some.inj hnew
      exact hstale c hc hprogress
    · exact h.replaced k r hr hprogress

/-- A release puts no row back within the window. -/
theorem OneWithin.release (h : w.OneWithin useLiveness) {i : ι} {r : BamRunner ι} (hr : w.runners i = some r) :
    (w.release i r).OneWithin useLiveness := by
  refine h.update rfl rfl (fun x => ?_) (fun x hprogress hwithin => ?_) fun k q hq => ?_
  · split <;> rfl
  · split at hprogress
    case isTrue hcarried =>
      rw [if_pos hcarried] at hwithin
      have hpast := h.replaced i r hr hprogress
      exact nomatch hpast.symm.trans hwithin
    case isFalse hcarried =>
      rw [if_neg hcarried] at hwithin
      exact ⟨hprogress, hwithin⟩
  · rcases of_runners_update hq with ⟨-, hnone⟩ | ⟨-, hq⟩
    · cases hnone
    · exact hq

/-- An outcome leaves its row in progress no more. -/
theorem OneWithin.record (h : w.OneWithin useLiveness) {i : ι} {r : BamRunner ι} {goesOn : Bool} {f : BamRow → BamRow}
    (hf : ∀ x, (f x).id = x.id) (hstatus : ∀ x, (f x).status ≠ .inProgress) :
    (w.record i r goesOn (updateBam r.found.id f)).OneWithin useLiveness := by
  refine h.update rfl rfl hf (fun x hprogress => absurd hprogress (hstatus x)) fun k q hq => ?_
  cases goesOn with
  | true => exact hq
  | false =>
    rcases of_runners_update hq with ⟨-, hnone⟩ | ⟨-, hq⟩
    · cases hnone
    · exact hq

theorem OneWithin.step (h : w.OneWithin useLiveness) (hstep : w.Step useLiveness mayRecord w') :
    w'.OneWithin useLiveness := by
  cases hstep with
  | tick now hnow => exact h.tick hnow
  | locks live => exact ⟨h.ids, h.one, h.replaced⟩
  | claim i pendingOnly rank skipped c hidle hskipped hfound =>
    obtain ⟨hc, -, -, hstale, -⟩ := bamCandidate_spec hfound
    refine h.claim hc fun g hg hprogress => ?_
    have hnot := hstale g hg hprogress
    rw [bamNotStale_eq, Bool.or_eq_false_iff] at hnot
    exact hnot.1
  | release i r hr => exact h.release hr
  | complete i r goesOn hr hmay =>
    exact h.record (f := fun x => { x with status := .completed, completedOn := some w.clock, error := none })
      (fun _ => rfl) fun _ => nofun
  | fail i r error hr hmay =>
    exact h.record (f := fun x => { x with status := .failed, error := some error, completedOn := some w.clock })
      (fun _ => rfl) fun _ => nofun
  | crash i =>
    refine ⟨h.ids, h.one, fun k r hr => ?_⟩
    rcases of_runners_update hr with ⟨-, hnone⟩ | ⟨-, hr⟩
    · cases hnone
    · exact h.replaced k r hr

theorem Run.oneWithin (hstart : w₀.Start) (hrun : Run useLiveness mayRecord w₀ w) : w.OneWithin useLiveness := by
  induction hrun with
  | refl => exact hstart.oneWithin
  | tail _ hstep ih => exact ih.step hstep

/-- In every reachable state at most one row is in progress within the window, so of two in progress that are not stale
one is past its grace and reads as live by a lock on its table; and every claim and release does what it should. -/
theorem bam_oneAtATime (hstart : w₀.Start) (hrun : Run useLiveness mayRecord w₀ w) :
    (∀ r ∈ w.rows, ∀ r' ∈ w.rows, r.status = .inProgress → r'.status = .inProgress →
      bamNotStale useLiveness w.clock w.live r = true → bamNotStale useLiveness w.clock w.live r' = true → r = r' ∨
        useLiveness = true ∧ (within useLiveness w.clock r = false ∧ w.live r.tableName = true ∨
          within useLiveness w.clock r' = false ∧ w.live r'.tableName = true)) ∧
      (∀ pendingOnly rank skipped c, (∀ x ∈ w.rows, x.id ∈ skipped → x.status ≠ .pending) →
        bamCandidate useLiveness pendingOnly w.clock w.live rank skipped w.rows = some c →
          (∀ p ∈ w.rows, p.version = c.version → p.tableName = c.tableName → p.createdOn < c.createdOn →
            p.status = .completed) ∧
          (∀ g ∈ w.rows, g.status = .inProgress → bamNotStale useLiveness w.clock w.live g = false) ∧
          (c.status ≠ .pending → ∀ p ∈ bamCandidates useLiveness pendingOnly w.clock w.live w.rows,
            p.status ≠ .pending)) ∧
      ∀ i r, w.runners i = some r → (w.release i r).rows = w.rows.map fun x =>
        if x.id = r.found.id ∧ x.status = .inProgress ∧ x.startedOn = some r.stamp then
          { x with status := r.found.status, startedOn := r.found.startedOn }
        else x := by
  have hone := hrun.oneWithin hstart
  refine ⟨fun r hr r' hr' hprogress hprogress' hlive hlive' => ?_,
    fun pendingOnly rank skipped c hskipped hfound => ?_, fun i r _ => ?_⟩
  · rw [bamNotStale_eq, Bool.or_eq_true, Bool.and_eq_true] at hlive hlive'
    cases hwithin : within useLiveness w.clock r with
    | false =>
      obtain ⟨hliveness, hlocked⟩ := hlive.resolve_left (by simp [hwithin])
      exact .inr ⟨hliveness, .inl ⟨rfl, hlocked⟩⟩
    | true =>
      cases hwithin' : within useLiveness w.clock r' with
      | false =>
        obtain ⟨hliveness, hlocked⟩ := hlive'.resolve_left (by simp [hwithin'])
        exact .inr ⟨hliveness, .inr ⟨rfl, hlocked⟩⟩
      | true => exact .inl (hone.one r hr r' hr' hprogress hprogress' hwithin hwithin')
  · obtain ⟨hc, -, hafter, hstale, hfirst⟩ := bamCandidate_spec hfound
    refine ⟨fun p hp hversion htable hbefore => ?_, hstale, fun hstatus p hp hpending => ?_⟩
    · have hpred := List.all_eq_true.mp hafter p hp
      simpa [hversion, htable, hbefore] using hpred
    · obtain ⟨-, hskip⟩ := hfirst hstatus p hp hpending
      exact hskipped p (List.mem_filter.mp hp).1 hskip hpending
  · refine List.map_congr_left fun x _ => ?_
    simp only [BamClaim.carriedBy_iff, ite_and]
    rfl

section Overlap

/-- Commands of two versions on one table. -/
def firstBuild : BamRow where
  id := 1
  version := 40
  tableName := "job_common"
  command := "CREATE INDEX CONCURRENTLY job_i14 ON job_common (name)"
  createdOn := 0

def secondBuild : BamRow where
  id := 2
  version := 41
  tableName := "job_common"
  command := "CREATE INDEX CONCURRENTLY job_i15 ON job_common (name)"
  createdOn := 1

def bothPending : BamWorld Bool where
  rows := [firstBuild, secondBuild]
  clock := 0
  live _ := false
  runners _ := none

theorem bothPending_start : bothPending.Start := ⟨by decide, by decide, fun _ => rfl, fun _ => rfl, rfl, rfl⟩

/-- The runner of the first command is gone, and past the grace another claims the second and builds. -/
def secondBuilding : BamWorld Bool :=
  let first := bothPending.claim false firstBuild
  let later := { first with runners := Function.update first.runners false none, clock := 301 * microsPerSecond }
  { later.claim true secondBuild with live := fun tableName => decide (tableName = "job_common") }

theorem secondBuilding_run : Run true (fun _ _ => True) bothPending secondBuilding :=
  .tail (.tail (.tail (.tail (.single (.claim false false (fun _ => 0) [] firstBuild rfl (by decide) (by decide)))
    (.crash false)) (.tick (301 * microsPerSecond) (by decide)))
    (.claim true false (fun _ => 0) [] secondBuild rfl (by decide) (by decide))) (.locks _)

/-- The first command reads as live again by the lock of the second one's build. -/
theorem bothInProgress_notStale : ∃ w : BamWorld Bool, Run true (fun _ _ => True) bothPending w ∧
    ∃ r ∈ w.rows, ∃ r' ∈ w.rows, r ≠ r' ∧ r.status = .inProgress ∧ r'.status = .inProgress ∧
      bamNotStale true w.clock w.live r = true ∧ bamNotStale true w.clock w.live r' = true :=
  ⟨secondBuilding, secondBuilding_run, by decide⟩

/-- The theorem of the run that ends there. -/
theorem bam_oneAtATime_secondBuilding : (∃ r, secondBuilding.runners true = some r) ∧
    ∀ r ∈ secondBuilding.rows, ∀ r' ∈ secondBuilding.rows, r.status = .inProgress → r'.status = .inProgress →
      bamNotStale true secondBuilding.clock secondBuilding.live r = true →
      bamNotStale true secondBuilding.clock secondBuilding.live r' = true → r = r' ∨
        true = true ∧ (within true secondBuilding.clock r = false ∧ secondBuilding.live r.tableName = true ∨
          within true secondBuilding.clock r' = false ∧ secondBuilding.live r'.tableName = true) :=
  ⟨⟨_, rfl⟩, (bam_oneAtATime bothPending_start secondBuilding_run).1⟩

end Overlap

end BamWorld

end PgBoss
