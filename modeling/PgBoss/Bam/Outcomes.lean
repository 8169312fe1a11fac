import PgBoss.Bam.Runners

/-!
# Outcomes written on one's own claim

A release compares the stamp before it changes the row; the two outcome writes do not. Where a runner
writes its outcome only on a row that carries its claim, the stamp does tell the claims apart: outcomes
are each runner's own, what completed stays so, and no command is claimed before those it waits for.
-/

namespace PgBoss

namespace BamWorld

variable {ι : Type*} {useLiveness : Bool} {w w' w₀ : BamWorld ι} {rows : List BamRow} {claimed : List Uuid}

/-- An update that leaves what a row is, whatever it does to how it stands. -/
structure KeepsEntry (f : BamRow → BamRow) : Prop where
  id : ∀ x, (f x).id = x.id
  version : ∀ x, (f x).version = x.version
  tableName : ∀ x, (f x).tableName = x.tableName
  createdOn : ∀ x, (f x).createdOn = x.createdOn

/-- Every earlier command of the version and table of one that has been claimed has completed. -/
def InOrder (rows : List BamRow) (claimed : List Uuid) : Prop :=
  ∀ c ∈ rows, c.id ∈ claimed → ∀ p ∈ rows, p.version = c.version → p.tableName = c.tableName →
    p.createdOn < c.createdOn → p.status = .completed

/-- An update of a row that has not completed leaves the completed ones. -/
theorem mem_updateBam_of_completed {id : Uuid} {f : BamRow → BamRow} (hopen : ∀ x ∈ rows, x.id = id → x.status ≠ .completed)
    {x : BamRow} (hx : x ∈ rows) (hcompleted : x.status = .completed) : x ∈ updateBam id f rows :=
  mem_updateBam.mpr ⟨x, hx, if_neg fun hid => hopen x hx hid hcompleted⟩

theorem InOrder.update {id : Uuid} {f : BamRow → BamRow} (h : InOrder rows claimed) (hf : KeepsEntry f)
    (hopen : ∀ x ∈ rows, x.id = id → x.status ≠ .completed) : InOrder (updateBam id f rows) claimed := by
  have hsame : ∀ x, (if x.id = id then f x else x).id = x.id ∧ (if x.id = id then f x else x).version = x.version ∧
      (if x.id = id then f x else x).tableName = x.tableName ∧
      (if x.id = id then f x else x).createdOn = x.createdOn := by
    intro x
    split
    · exact ⟨hf.id x, hf.version x, hf.tableName x, hf.createdOn x⟩
    · exact ⟨rfl, rfl, rfl, rfl⟩
  intro c' hc' hclaimed p' hp' hversion htable hbefore
  obtain ⟨c, hc, rfl⟩ := mem_updateBam.mp hc'
  obtain ⟨p, hp, rfl⟩ := mem_updateBam.mp hp'
  obtain ⟨hcid, hcversion, hctable, hccreated⟩ := hsame c
  obtain ⟨-, hpversion, hptable, hpcreated⟩ := hsame p
  have hcompleted := h c hc (hcid ▸ hclaimed) p hp (hpversion ▸ hcversion ▸ hversion) (hptable ▸ hctable ▸ htable)
    (hpcreated ▸ hccreated ▸ hbefore)
  rw [if_neg fun hid => hopen p hp hid hcompleted]
  exact hcompleted

/-- What every reachable state keeps. A runner whose claim its row carries is the carrier; one whose claim was replaced
is named by the claim that replaced it; and a row that carries a runner's claim no more has completed, or does so
since an earlier instant. -/
structure Carried (w : BamWorld ι) : Prop where
  ids : (w.rows.map BamRow.id).Nodup
  stamps : ∀ i r, w.runners i = some r → r.stamp ≤ w.clock
  own : ∀ i r, w.runners i = some r → w.Carries r.claim → w.carrier r.found.id = some i
  prior : ∀ i r, w.runners i = some r → r.found.status = .inProgress → ∀ k q, w.runners k = some q →
    q.found.id = r.found.id → r.found.startedOn = some q.stamp → r.priorCarrier = some k
  replaced : ∀ i r, w.runners i = some r → r.found.status = .inProgress → ∀ s, r.found.startedOn = some s → s < r.stamp
  superseded : ∀ i r, w.runners i = some r → ∀ x ∈ w.rows, x.id = r.found.id →
    r.claim.carriedBy x = true ∨ x.status = .completed ∨ r.stamp < w.clock
  inOrder : InOrder w.rows w.claimed
  outcomes : ∀ o ∈ w.outcomes, o.carrier = some o.runner

theorem Start.carried (h : w.Start) : w.Carried where
  ids := h.ids
  stamps i _ hr := nomatch (h.runners i).symm.trans hr
  own i _ hr := nomatch (h.runners i).symm.trans hr
  prior i _ hr := nomatch (h.runners i).symm.trans hr
  replaced i _ hr := nomatch (h.runners i).symm.trans hr
  superseded i _ hr := nomatch (h.runners i).symm.trans hr
  inOrder := by simp [InOrder, h.claimed]
  outcomes := by simp [h.outcomes]

/-- Time goes by, locks come and go, and runners may be gone. -/
structure KeepsRows (w w' : BamWorld ι) : Prop where
  rows : w'.rows = w.rows
  clock : w.clock ≤ w'.clock
  carrier : w'.carrier = w.carrier
  claimed : w'.claimed = w.claimed
  outcomes : w'.outcomes = w.outcomes
  runners : ∀ i r, w'.runners i = some r → w.runners i = some r

theorem Carried.keepsRows (h : w.Carried) (hkeeps : KeepsRows w w') : w'.Carried := by
  obtain ⟨hrows, hclock, hcarrier, hclaimed, houtcomes, hrunners⟩ := hkeeps
  constructor
  case ids => exact hrows ▸ h.ids
  case stamps => exact fun i r hr => (h.stamps i r (hrunners i r hr)).trans hclock
  case own =>
    intro i r hr hcarries
    rw [Carries, hrows] at hcarries
    exact hcarrier ▸ h.own i r (hrunners i r hr) hcarries
  case prior => exact fun i r hr hprogress k q hq => h.prior i r (hrunners i r hr) hprogress k q (hrunners k q hq)
  case replaced => exact fun i r hr => h.replaced i r (hrunners i r hr)
  case superseded =>
    intro i r hr x hx hid
    exact (h.superseded i r (hrunners i r hr) x (hrows ▸ hx) hid).imp_right (Or.imp_right fun hlt => hlt.trans_le hclock)
  case inOrder => exact hrows ▸ hclaimed ▸ h.inOrder
  case outcomes => exact houtcomes ▸ h.outcomes

/-- Two runners whose claims one row carries are one. -/
theorem Carried.eq_of_carries (h : w.Carried) {i k : ι} {r q : BamRunner ι} (hr : w.runners i = some r)
    (hq : w.runners k = some q) (hid : q.found.id = r.found.id) (hcarries : w.Carries r.claim)
    (hcarries' : w.Carries q.claim) : k = i := by
  have hown := h.own i r hr hcarries
  have hown' := h.own k q hq hcarries'
  rw [hid] at hown'
  exact Option.some.inj (hown'.symm.trans hown)

/-- A runner whose row carries another one's claim has been replaced. -/
theorem Carried.lt_of_carries (h : w.Carried) {i k : ι} {r q : BamRunner ι} (hr : w.runners i = some r)
    (hq : w.runners k = some q) (hk : k ≠ i) (hid : q.found.id = r.found.id) (hcarries : w.Carries r.claim) :
    q.stamp < w.clock := by
  obtain ⟨x, hx, hxid, hcarried⟩ := hcarries
  have hprogress := (BamClaim.carriedBy_iff.mp hcarried).1
  rcases h.superseded k q hq x hx (hxid.trans hid.symm) with hcarried' | hcompleted | hlt
  · exact absurd (h.eq_of_carries hr hq hid ⟨x, hx, hxid, hcarried⟩ ⟨x, hx, hxid.trans hid.symm, hcarried'⟩) hk
  · exact nomatch hprogress.symm.trans hcompleted
  · exact hlt

/-- An update of one row leaves what other rows carry. -/
theorem carries_of_ne {id : Uuid} {f : BamRow → BamRow} (hrows : w'.rows = updateBam id f w.rows) (hf : ∀ x, (f x).id = x.id)
    {c : BamClaim} (hne : c.id ≠ id) (h : w'.Carries c) : w.Carries c := by
  obtain ⟨x', hx', hid, hcarried⟩ := h
  rw [hrows] at hx'
  obtain ⟨x, hx, rfl⟩ := mem_updateBam.mp hx'
  split at hid
  case isTrue hxid => exact absurd (hid.symm.trans ((hf x).trans hxid)) hne
  case isFalse hxid =>
    rw [if_neg hxid] at hcarried
    exact ⟨x, hx, hid, hcarried⟩

/-- What a row that was updated carries is what the update made of it. -/
theorem carries_of_eq {id : Uuid} {f : BamRow → BamRow} (hrows : w'.rows = updateBam id f w.rows) {c : BamClaim}
    (hid : c.id = id) (h : w'.Carries c) : ∃ x ∈ w.rows, x.id = id ∧ c.carriedBy (f x) = true := by
  obtain ⟨x', hx', hxid, hcarried⟩ := h
  rw [hrows] at hx'
  obtain ⟨x, hx, rfl⟩ := mem_updateBam.mp hx'
  split at hxid
  case isTrue hmatch =>
    rw [if_pos hmatch] at hcarried
    exact ⟨x, hx, hmatch, hcarried⟩
  case isFalse hmatch => exact absurd (hxid.trans hid) hmatch

/-- A row that carries a claim is the one of its id, and has not completed. -/
theorem Carried.row_of_carries (h : w.Carried) {c : BamClaim} (hcarries : w.Carries c) :
    ∃ x₀, c.carriedBy x₀ = true ∧ (∀ x ∈ w.rows, x.id = c.id → x = x₀) ∧
      ∀ x ∈ w.rows, x.id = c.id → x.status ≠ .completed := by
  obtain ⟨x₀, hx₀, hid₀, hcarried₀⟩ := hcarries
  have hrow : ∀ x ∈ w.rows, x.id = c.id → x = x₀ :=
    fun x hx hid => List.inj_on_of_nodup_map h.ids hx hx₀ (hid.trans hid₀.symm)
  refine ⟨x₀, hcarried₀, hrow, fun x hx hid hcompleted => ?_⟩
  obtain rfl := hrow x hx hid
  exact nomatch (BamClaim.carriedBy_iff.mp hcarried₀).1.symm.trans hcompleted

/-- A row that may be claimed has not completed, and if it is in progress was claimed before. -/
theorem of_bamClaimable {pendingOnly : Bool} {now : ℤ} {live : String → Bool} {c : BamRow}
    (h : bamClaimable useLiveness pendingOnly now live c = true) :
    c.status ≠ .completed ∧ (c.status = .inProgress → ∀ s, c.startedOn = some s → s < now) := by
  constructor
  · intro hcompleted
    simp [bamClaimable, hcompleted] at h
  · intro hprogress s hs
    have hwindow : 0 ≤ bamWindow useLiveness := by cases useLiveness <;> decide
    simp only [bamClaimable, hprogress, bamStale, hs, Option.any_some] at h
    have hlt : s < now - bamWindow useLiveness := by
      by_contra hnot
      simp [hnot] at h
    omega

variable [DecidableEq ι]

theorem Carried.claim (h : w.Carried) {i : ι} {c : BamRow} (hc : c ∈ w.rows) (hidle : w.runners i = none)
    (hopen : c.status ≠ .completed) (hstale : c.status = .inProgress → ∀ s, c.startedOn = some s → s < w.clock)
    (hafter : afterPredecessors w.rows c = true) : (w.claim i c).Carried := by
  have hrow : ∀ x ∈ w.rows, x.id = c.id → x = c := fun x hx hid => List.inj_on_of_nodup_map h.ids hx hc hid
  -- a runner that held the row before has been replaced
  have hreplaced : ∀ k q, w.runners k = some q → q.found.id = c.id → q.stamp < w.clock := by
    intro k q hq hid
    rcases h.superseded k q hq c hc hid.symm with hcarried | hcompleted | hlt
    · obtain ⟨hprogress, hstarted⟩ := BamClaim.carriedBy_iff.mp hcarried
      exact hstale hprogress _ hstarted
    · exact absurd hcompleted hopen
    · exact hlt
  constructor
  case ids =>
    have hids : (w.claim i c).rows.map BamRow.id = w.rows.map BamRow.id := updateBam_ids fun _ => rfl
    rw [hids]
    exact h.ids
  case stamps =>
    intro k q hq
    rcases of_runners_update hq with ⟨-, hnew⟩ | ⟨-, hq⟩
    · obtain rfl := Option.some.inj hnew
      exact le_rfl
    · exact h.stamps k q hq
  case own =>
    intro k q hq hcarries
    simp only [BamWorld.claim]
    rcases of_runners_update hq with ⟨rfl, hnew⟩ | ⟨-, hq⟩
    · obtain rfl := Option.some.inj hnew
      exact Function.update_self ..
    · by_cases hid : q.found.id = c.id
      · exfalso
        obtain ⟨x, -, -, hcarried⟩ := carries_of_eq (f := claimBamRow w.clock) rfl hid hcarries
        have hstarted : some w.clock = some q.stamp := (BamClaim.carriedBy_iff.mp hcarried).2
        have hlt := hreplaced k q hq hid
        rw [Option.some.inj hstarted] at hlt
        exact lt_irrefl _ hlt
      · rw [Function.update_of_ne hid]
        exact h.own k q hq (carries_of_ne (f := claimBamRow w.clock) rfl (fun _ => rfl) hid hcarries)
  case prior =>
    intro k r hr hprogress l q hq hid hstarted
    rcases of_runners_update hr with ⟨rfl, hnew⟩ | ⟨-, hr⟩
    · obtain rfl := Option.some.inj hnew
      rcases of_runners_update hq with ⟨-, hnew'⟩ | ⟨-, hq⟩
      · obtain rfl := Option.some.inj hnew'
        exact absurd (hstale hprogress _ hstarted) (lt_irrefl _)
      · have hcarries : w.Carries q.claim :=
          ⟨c, hc, hid.symm, BamClaim.carriedBy_iff.mpr ⟨hprogress, hstarted⟩⟩
        have hown := h.own l q hq hcarries
        rwa [hid] at hown
    · rcases of_runners_update hq with ⟨-, hnew⟩ | ⟨-, hq⟩
      · obtain rfl := Option.some.inj hnew
        have hlt := h.replaced k r hr hprogress _ hstarted
        exact absurd (hlt.trans_le (h.stamps k r hr)) (lt_irrefl _)
      · exact h.prior k r hr hprogress l q hq hid hstarted
  case replaced =>
    intro k r hr hprogress s hs
    rcases of_runners_update hr with ⟨-, hnew⟩ | ⟨-, hr⟩
    · obtain rfl := Option.some.inj hnew
      exact hstale hprogress s hs
    · exact h.replaced k r hr hprogress s hs
  case superseded =>
    intro k q hq x' hx' hid
    obtain ⟨x, hx, rfl⟩ := mem_updateBam.mp hx'
    rcases of_runners_update hq with ⟨-, hnew⟩ | ⟨-, hq⟩
    · obtain rfl := Option.some.inj hnew
      have hxid : x.id = c.id := by
        split at hid
        case isTrue hxc => exact hxc
        case isFalse => exact hid
      rw [if_pos hxid]
      exact .inl (BamClaim.carriedBy_iff.mpr ⟨rfl, rfl⟩)
    · split at hid
      case isTrue hxc => exact .inr (.inr (hreplaced k q hq (hid.symm.trans hxc)))
      case isFalse hxc =>
        rw [if_neg hxc]
        exact h.superseded k q hq x hx hid
  case inOrder =>
    have hfirst : InOrder w.rows (c.id :: w.claimed) := by
      intro x hx hclaimed p hp hversion htable hbefore
      rcases List.mem_cons.mp hclaimed with hid | hold
      · obtain rfl := hrow x hx hid
        have hpred := List.all_eq_true.mp hafter p hp
        simpa [hversion, htable, hbefore] using hpred
      · exact h.inOrder x hx hold p hp hversion htable hbefore
    exact hfirst.update ⟨fun _ => rfl, fun _ => rfl, fun _ => rfl, fun _ => rfl⟩ fun x hx hid => hrow x hx hid ▸ hopen
  case outcomes => exact h.outcomes

omit [DecidableEq ι] in
/-- A runner that lost its claim releases nothing. -/
theorem releaseBamCommand_of_not_carries {c : BamClaim} (h : ¬ w.Carries c) : releaseBamCommand c w.rows = w.rows := by
  refine (List.map_congr_left fun x hx => ?_).trans (List.map_id _)
  split
  case isTrue hid =>
    exact if_neg fun hcarried => h ⟨x, hx, hid, hcarried⟩
  case isFalse => rfl

theorem Carried.release (h : w.Carried) {i : ι} {r : BamRunner ι} (hr : w.runners i = some r) :
    (w.release i r).Carried := by
  have hothers : ∀ k q, (w.release i r).runners k = some q → k ≠ i ∧ w.runners k = some q := by
    intro k q hq
    rcases of_runners_update hq with ⟨-, hnone⟩ | hk
    · cases hnone
    · exact hk
  by_cases hcarries : w.Carries r.claim
  · obtain ⟨x₀, hcarried₀, hrow, hopen⟩ := h.row_of_carries hcarries
    have hkeeps : KeepsEntry fun x => if r.claim.carriedBy x then
        { x with status := r.claim.priorStatus, startedOn := r.claim.priorStartedOn } else x := by
      constructor <;> intro x <;> split <;> rfl
    constructor
    case ids =>
      have hids : (w.release i r).rows.map BamRow.id = w.rows.map BamRow.id := updateBam_ids hkeeps.id
      rw [hids]
      exact h.ids
    case stamps => exact fun k q hq => h.stamps k q (hothers k q hq).2
    case own =>
      intro k q hq hcarries'
      simp only [BamWorld.release, if_pos hcarries]
      by_cases hid : q.found.id = r.found.id
      · -- the row carries the claim that this one replaced
        obtain ⟨x, hx, hxr, hcarried⟩ := carries_of_eq rfl hid hcarries'
        obtain rfl := hrow x hx hxr
        rw [if_pos hcarried₀] at hcarried
        obtain ⟨hprogress, hstarted⟩ := BamClaim.carriedBy_iff.mp hcarried
        rw [hid, Function.update_self]
        exact h.prior i r hr hprogress k q (hothers k q hq).2 hid hstarted
      · rw [Function.update_of_ne hid]
        exact h.own k q (hothers k q hq).2 (carries_of_ne rfl hkeeps.id hid hcarries')
    case prior =>
      exact fun k q hq hprogress l p hp => h.prior k q (hothers k q hq).2 hprogress l p (hothers l p hp).2
    case replaced => exact fun k q hq => h.replaced k q (hothers k q hq).2
    case superseded =>
      intro k q hq x' hx' hid
      obtain ⟨hk, hq⟩ := hothers k q hq
      obtain ⟨x, hx, rfl⟩ := mem_updateBam.mp hx'
      split at hid
      case isTrue hxr =>
        have hxr : x.id = r.found.id := hxr
        have hqid : q.found.id = r.found.id := by rw [← hid, hkeeps.id, hxr]
        exact .inr (.inr (h.lt_of_carries hr hq hk hqid hcarries))
      case isFalse hxr =>
        rw [if_neg hxr]
        exact h.superseded k q hq x hx hid
    case inOrder => exact h.inOrder.update hkeeps hopen
    case outcomes => exact h.outcomes
  · refine h.keepsRows ⟨releaseBamCommand_of_not_carries hcarries, le_rfl, ?_, rfl, rfl, fun k q hq => (hothers k q hq).2⟩
    simp only [BamWorld.release, if_neg hcarries]

theorem Carried.record (h : w.Carried) {i : ι} {r : BamRunner ι} {goesOn : Bool} {f : BamRow → BamRow}
    (hr : w.runners i = some r) (hcarries : w.Carries r.claim) (hf : KeepsEntry f)
    (hended : ∀ x, (f x).status ≠ .inProgress) (hgoes : goesOn = true → ∀ x, (f x).status = .completed) :
    (w.record i r goesOn (updateBam r.found.id f)).Carried := by
  obtain ⟨-, -, -, hopen⟩ := h.row_of_carries hcarries
  have hbefore : ∀ k q, (w.record i r goesOn (updateBam r.found.id f)).runners k = some q →
      w.runners k = some q ∧ (k = i → goesOn = true) := by
    intro k q hq
    cases goesOn with
    | true => exact ⟨hq, fun _ => rfl⟩
    | false =>
      rcases of_runners_update hq with ⟨-, hnone⟩ | ⟨hk, hq⟩
      · cases hnone
      · exact ⟨hq, fun hki => absurd hki hk⟩
  constructor
  case ids =>
    have hids : (w.record i r goesOn (updateBam r.found.id f)).rows.map BamRow.id = w.rows.map BamRow.id :=
      updateBam_ids hf.id
    rw [hids]
    exact h.ids
  case stamps => exact fun k q hq => h.stamps k q (hbefore k q hq).1
  case own =>
    intro k q hq hcarries'
    by_cases hid : q.found.id = r.found.id
    · obtain ⟨x, -, -, hcarried⟩ := carries_of_eq (f := f) rfl hid hcarries'
      exact absurd (BamClaim.carriedBy_iff.mp hcarried).1 (hended x)
    · simp only [BamWorld.record]
      rw [Function.update_of_ne hid]
      exact h.own k q (hbefore k q hq).1 (carries_of_ne rfl hf.id hid hcarries')
  case prior =>
    exact fun k q hq hprogress l p hp => h.prior k q (hbefore k q hq).1 hprogress l p (hbefore l p hp).1
  case replaced => exact fun k q hq => h.replaced k q (hbefore k q hq).1
  case superseded =>
    intro k q hq x' hx' hid
    obtain ⟨hq, hgoesOn⟩ := hbefore k q hq
    obtain ⟨x, hx, rfl⟩ := mem_updateBam.mp hx'
    split at hid
    case isTrue hxr =>
      rw [if_pos hxr]
      by_cases hk : k = i
      · exact .inr (.inl (hgoes (hgoesOn hk) x))
      · exact .inr (.inr (h.lt_of_carries hr hq hk (by rw [← hid, hf.id, hxr]) hcarries))
    case isFalse hxr =>
      rw [if_neg hxr]
      exact h.superseded k q hq x hx hid
  case inOrder => exact h.inOrder.update hf hopen
  case outcomes =>
    intro o ho
    rcases List.mem_cons.mp ho with rfl | ho
    · exact h.own i r hr hcarries
    · exact h.outcomes o ho

theorem Carried.step (h : w.Carried) (hstep : w.Step useLiveness Carries w') : w'.Carried := by
  cases hstep with
  | tick now hnow => exact h.keepsRows ⟨rfl, hnow, rfl, rfl, rfl, fun _ _ hr => hr⟩
  | locks live => exact h.keepsRows ⟨rfl, le_rfl, rfl, rfl, rfl, fun _ _ hr => hr⟩
  | claim i pendingOnly rank skipped c hidle hskipped hfound =>
    obtain ⟨hc, hclaimable, hafter, -⟩ := bamCandidate_spec hfound
    obtain ⟨hopen, hstale⟩ := of_bamClaimable hclaimable
    exact h.claim hc hidle hopen hstale hafter
  | release i r hr => exact h.release hr
  | complete i r goesOn hr hmay =>
    exact h.record hr hmay ⟨fun _ => rfl, fun _ => rfl, fun _ => rfl, fun _ => rfl⟩ (fun _ => nofun) fun _ _ => rfl
  | fail i r error hr hmay =>
    exact h.record hr hmay ⟨fun _ => rfl, fun _ => rfl, fun _ => rfl, fun _ => rfl⟩ (fun _ => nofun) nofun
  | crash i =>
    refine h.keepsRows ⟨rfl, le_rfl, rfl, rfl, rfl, fun k r hr => ?_⟩
    rcases of_runners_update hr with ⟨-, hnone⟩ | ⟨-, hr⟩
    · cases hnone
    · exact hr

theorem Run.carried (hstart : w₀.Start) (hrun : Run useLiveness Carries w₀ w) : w.Carried := by
  induction hrun with
  | refl => exact hstart.carried
  | tail _ hstep ih => exact ih.step hstep

/-- A step leaves the rows that have completed. -/
theorem Carried.mem_of_completed (h : w.Carried) (hstep : w.Step useLiveness Carries w') {x : BamRow} (hx : x ∈ w.rows)
    (hcompleted : x.status = .completed) : x ∈ w'.rows := by
  have hcarried : ∀ c : BamClaim, w.Carries c → ∀ y ∈ w.rows, y.id = c.id → y.status ≠ .completed := by
    rintro c ⟨z, hz, hid, hcarried⟩ y hy hyid hycompleted
    obtain rfl := List.inj_on_of_nodup_map h.ids hy hz (hyid.trans hid.symm)
    exact nomatch (BamClaim.carriedBy_iff.mp hcarried).1.symm.trans hycompleted
  cases hstep with
  | tick => exact hx
  | locks => exact hx
  | claim i pendingOnly rank skipped c hidle hskipped hfound =>
    obtain ⟨hc, hclaimable, -⟩ := bamCandidate_spec hfound
    refine mem_updateBam_of_completed (fun y hy hid => ?_) hx hcompleted
    rw [List.inj_on_of_nodup_map h.ids hy hc hid]
    exact (of_bamClaimable hclaimable).1
  | release i r hr =>
    by_cases hcarries : w.Carries r.claim
    · exact mem_updateBam_of_completed (hcarried _ hcarries) hx hcompleted
    · have hsame : (w.release i r).rows = w.rows := releaseBamCommand_of_not_carries hcarries
      rw [hsame]
      exact hx
  | complete i r goesOn hr hmay => exact mem_updateBam_of_completed (hcarried _ hmay) hx hcompleted
  | fail i r error hr hmay => exact mem_updateBam_of_completed (hcarried _ hmay) hx hcompleted
  | crash => exact hx

section Held

variable {i : ι} {r : BamRunner ι}

omit [DecidableEq ι] in
/-- An update of one row leaves the claims that other rows carry. -/
theorem Carries.update {id : Uuid} {f : BamRow → BamRow} {c : BamClaim} (h : w.Carries c) (hne : c.id ≠ id)
    (hrows : w'.rows = updateBam id f w.rows) : w'.Carries c := by
  obtain ⟨x, hx, hid, hcarried⟩ := h
  exact ⟨x, hrows ▸ mem_updateBam.mpr ⟨x, hx, if_neg (hid ▸ hne)⟩, hid, hcarried⟩

omit [DecidableEq ι] in
theorem Carries.of_rows {c : BamClaim} (h : w.Carries c) (hrows : w'.rows = w.rows) : w'.Carries c := by
  rwa [Carries, hrows]

/-- A claim leaves its row carrying it. -/
theorem carries_claim {c : BamRow} (hc : c ∈ w.rows) : (w.claim i c).Carries (bamClaimOf w.clock c) :=
  ⟨claimBamRow w.clock c, mem_updateBam.mpr ⟨c, hc, if_pos rfl⟩, rfl, BamClaim.carriedBy_iff.mpr ⟨rfl, rfl⟩⟩

theorem Step.count_claimed_le (hstep : w.Step useLiveness Carries w') (id : Uuid) :
    w.claimed.count id ≤ w'.claimed.count id := by
  cases hstep with
  | claim => exact List.count_le_count_cons
  | _ => exact le_rfl

theorem Run.count_claimed_le (hrun : Run useLiveness Carries w w') (id : Uuid) :
    w.claimed.count id ≤ w'.claimed.count id := by
  induction hrun with
  | refl => exact le_rfl
  | tail _ hstep ih => exact ih.trans (hstep.count_claimed_le id)

/-- Without a new claim of its row, a runner under way was so before. -/
theorem runner_of_unclaimed (hstep : w.Step useLiveness Carries w') (hr : w'.runners i = some r)
    (hunclaimed : w'.claimed.count r.found.id = w.claimed.count r.found.id) : w.runners i = some r := by
  have hended : ∀ {k : ι}, Function.update w.runners k none i = some r → w.runners i = some r := fun h =>
    (of_runners_update h).elim (fun hnone => nomatch hnone.2) And.right
  cases hstep with
  | tick => exact hr
  | locks => exact hr
  | claim k pendingOnly rank skipped c hidle hskipped hfound =>
    rcases of_runners_update hr with ⟨-, hnew⟩ | ⟨-, hr⟩
    · obtain rfl := Option.some.inj hnew
      simp [BamWorld.claim] at hunclaimed
    · exact hr
  | release => exact hended hr
  | complete k q goesOn =>
    cases goesOn with
    | true => exact hr
    | false => exact hended hr
  | fail => exact hended hr
  | crash => exact hended hr

/-- A step that does not claim its row leaves a runner its claim, unless the runner completes the row. -/
theorem Carried.carries_step (h : w.Carried) (hr : w.runners i = some r) (hcarries : w.Carries r.claim)
    (hstep : w.Step useLiveness Carries w') (hr' : w'.runners i = some r)
    (hunclaimed : w'.claimed.count r.found.id = w.claimed.count r.found.id) :
    w'.Carries r.claim ∨ ∃ x ∈ w'.rows, x.id = r.found.id ∧ x.status = .completed := by
  -- another runner does not write on the row, which does not carry its claim
  have hother : ∀ {k q}, w.runners k = some q → k ≠ i → w.Carries q.claim → r.found.id ≠ q.found.id :=
    fun hq hk hcarries' hid => hk (h.eq_of_carries hr hq hid.symm hcarries hcarries')
  have hended : ∀ {k : ι}, Function.update w.runners k none i = some r → k ≠ i := by
    rintro k hkept rfl
    rw [Function.update_self] at hkept
    cases hkept
  cases hstep with
  | tick => exact .inl (hcarries.of_rows rfl)
  | locks => exact .inl (hcarries.of_rows rfl)
  | claim k pendingOnly rank skipped c hidle hskipped hfound =>
    have hne : r.found.id ≠ c.id := by
      intro hid
      simp [BamWorld.claim, hid] at hunclaimed
    exact .inl (hcarries.update hne rfl)
  | release k q hq =>
    by_cases hcarries' : w.Carries q.claim
    · exact .inl (hcarries.update (hother hq (hended hr') hcarries') rfl)
    · exact .inl (hcarries.of_rows (releaseBamCommand_of_not_carries hcarries'))
  | complete k q goesOn hq hmay =>
    by_cases hk : k = i
    · subst hk
      obtain rfl := Option.some.inj (hq.symm.trans hr)
      obtain ⟨x, hx, hid, -⟩ := hcarries
      exact .inr ⟨_, mem_updateBam.mpr ⟨x, hx, if_pos hid⟩, hid, rfl⟩
    · exact .inl (hcarries.update (hother hq hk hmay) rfl)
  | fail k q error hq hmay => exact .inl (hcarries.update (hother hq (hended hr') hmay) rfl)
  | crash => exact .inl (hcarries.of_rows rfl)

/-- A runner under way whose row nobody has claimed since it carried the runner's claim, as it does right after it, still
carries it, or has been completed since. -/
theorem carries_of_unclaimed (hstart : w₀.Start) (hrun : Run useLiveness Carries w₀ w) (hcarries : w.Carries r.claim)
    (hrun' : Run useLiveness Carries w w') (hr : w'.runners i = some r)
    (hunclaimed : w'.claimed.count r.found.id = w.claimed.count r.found.id) :
    w'.Carries r.claim ∨ ∃ x ∈ w'.rows, x.id = r.found.id ∧ x.status = .completed := by
  induction hrun' with
  | refl => exact .inl hcarries
  | @tail mid w' hbefore hstep ih =>
    have hcarried : mid.Carried := Run.carried hstart (hrun.trans hbefore)
    have hmid : mid.claimed.count r.found.id = w.claimed.count r.found.id :=
      le_antisymm (hunclaimed ▸ hstep.count_claimed_le r.found.id) (Run.count_claimed_le hbefore r.found.id)
    have hlast := hunclaimed.trans hmid.symm
    have hrunner := runner_of_unclaimed hstep hr hlast
    rcases ih hrunner hmid with hcarries' | ⟨x, hx, hid, hcompleted⟩
    · exact hcarried.carries_step hrunner hcarries' hstep hr hlast
    · exact .inr ⟨x, hcarried.mem_of_completed hstep hx hcompleted, hid, hcompleted⟩

end Held

/-- Where a runner writes its outcome only on a row that still carries its claim by status and stamp, every outcome is
written on the claim of its own runner, what has completed stays as it is, and every command that was ever claimed has
the earlier ones of its version and table behind it, completed. -/
theorem bam_outcomesOwn (hstart : w₀.Start) (hrun : Run useLiveness Carries w₀ w) :
    (∀ o ∈ w.outcomes, o.carrier = some o.runner) ∧
      (∀ x ∈ w.rows, x.status = .completed → ∀ w', Run useLiveness Carries w w' → x ∈ w'.rows) ∧
      InOrder w.rows w.claimed := by
  have hcarried := hrun.carried hstart
  refine ⟨hcarried.outcomes, fun x hx hcompleted w' hrun' => ?_, hcarried.inOrder⟩
  induction hrun' with
  | refl => exact hx
  | tail hbefore hstep ih => exact (Run.carried hstart (hrun.trans hbefore)).mem_of_completed hstep ih hcompleted

section Reclaim

/-- Two commands of one version on one table, in order. -/
def build : BamRow where
  id := 1
  version := 40
  tableName := "job_common"
  command := "CREATE INDEX CONCURRENTLY job_i14 ON job_common (name)"
  createdOn := 0

def retire : BamRow where
  id := 2
  version := 40
  tableName := "job_common"
  command := "DROP INDEX CONCURRENTLY job_i4"
  createdOn := 1

def migrated : BamWorld (Fin 3) where
  rows := [build, retire]
  clock := 0
  live _ := false
  runners _ := none

theorem migrated_start : migrated.Start := ⟨by decide, by decide, fun _ => rfl, fun _ => rfl, rfl, rfl⟩

/-- A day and a second later a second runner claims the row of a first that is still under way. -/
def reclaimed : BamWorld (Fin 3) :=
  { migrated.claim 0 build with clock := 86401 * microsPerSecond }.claim 1 (claimBamRow 0 build)

theorem reclaimed_run (mayRecord : BamWorld (Fin 3) → BamClaim → Prop) : Run false mayRecord migrated reclaimed :=
  .tail (.tail (.single (.claim 0 false (fun _ => 0) [] build rfl (by decide) (by decide)))
    (.tick (86401 * microsPerSecond) (by decide)))
    (.claim 1 false (fun _ => 0) [] (claimBamRow 0 build) rfl (by decide) (by decide))

/-- The claims of the two runners. -/
def firstRunner : BamRunner (Fin 3) := ⟨build, 0, none⟩

def secondRunner : BamRunner (Fin 3) := ⟨claimBamRow 0 build, 86401 * microsPerSecond, some 0⟩

/-- The second runner completes the command that the first one lost, and the next command is claimed behind it. -/
theorem bam_outcomesOwn_reclaimed : ∃ w : BamWorld (Fin 3), w.claimed = [2, 1, 1] ∧
    (∀ o ∈ w.outcomes, o.carrier = some o.runner) ∧
      (∀ x ∈ w.rows, x.status = .completed → ∀ w', Run false Carries w w' → x ∈ w'.rows) ∧
      InOrder w.rows w.claimed := by
  have hrun := ((reclaimed_run Carries).tail (.complete 1 secondRunner false rfl (by decide))).tail
    (.claim 1 true (fun _ => 0) [] retire rfl (by decide) (by decide))
  exact ⟨_, rfl, bam_outcomesOwn migrated_start hrun⟩

/-- The first runner marks the row completed under the second, a third claims the command behind it, and the second
then marks the row failed. -/
theorem lateOutcome_releasesNext : ∃ w : BamWorld (Fin 3), Run false (fun _ _ => True) migrated w ∧
    ¬ (∀ o ∈ w.outcomes, o.carrier = some o.runner) ∧ ¬ InOrder w.rows w.claimed := by
  have hlate := (reclaimed_run fun _ _ => True).tail (.complete 0 firstRunner false rfl trivial)
  have hnext := (hlate.tail (.claim 2 true (fun _ => 0) [] retire rfl (by decide) (by decide))).tail
    (.fail 1 secondRunner "index is invalid after the build" rfl trivial)
  refine ⟨_, hnext, by decide, fun horder => ?_⟩
  exact absurd horder (by unfold InOrder; decide)

end Reclaim

end BamWorld

end PgBoss
