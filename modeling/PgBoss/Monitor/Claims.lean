import PgBoss.Monitor.Supervise

/-!
# Interval claims over a run

A row that carries a claim is due to no one until an interval has gone by, and a row whose claim was
handed back is due at once: so claims stay an interval apart as long as a release clears the claim of
its own pass. The maintenance release compares the stamp; the monitor release does not, and clears a
claim made while its pass was between its own claim and the lost lock.
-/

namespace PgBoss

namespace SuperviseWorld

variable {ι : Type*} {shortest : ℤ} {w w' w₀ : SuperviseWorld ι}

/-- No claim that is still held on a queue of a monitor pass is newer than the claim of the pass. -/
def NoNewerClaim (w : SuperviseWorld ι) (p : SupervisePass) : Prop :=
  ∀ c ∈ w.claims, c.kind = .monitor → c.queue ∈ p.names → c.stamp ≤ p.stamp

/-- What every reachable state keeps: claims an interval apart, a row at its latest claim unless that was handed
back, and for every pass under way its claims, or later ones, on its queues. -/
structure Spaced (shortest : ℤ) (w : SuperviseWorld ι) : Prop where
  gaps : w.claims.Pairwise fun later earlier =>
    later.queue = earlier.queue → later.kind = earlier.kind → earlier.stamp + shortest ≤ later.stamp
  past : ∀ c ∈ w.claims, c.stamp ≤ w.clock
  row : ∀ c ∈ w.claims, ∀ s, (w.queues c.queue).claimOn c.kind = some s → c.stamp = s ∨ c.stamp + shortest ≤ s
  free : ∀ c ∈ w.claims, (w.queues c.queue).claimOn c.kind = none → c.stamp + shortest ≤ w.clock
  held : ∀ i p, w.passes i = some p → ∀ name ∈ p.names, ⟨name, p.kind, p.stamp, i⟩ ∈ w.claims
  later : ∀ i p, w.passes i = some p → ∀ name ∈ p.names, ∀ s, (w.queues name).claimOn p.kind = some s →
    s = p.stamp ∨ p.stamp < s ∧ ∃ c ∈ w.claims, c.queue = name ∧ c.kind = p.kind ∧ c.stamp = s
  cleared : ∀ c ∈ w.cleared, c.was = c.stamp

theorem Start.spaced (h : w.Start) : w.Spaced shortest where
  gaps := by simp [h.claims]
  past := by simp [h.claims]
  row := by simp [h.claims]
  free := by simp [h.claims]
  held i p hp := nomatch (h.passes i).symm.trans hp
  later i p hp := nomatch (h.passes i).symm.trans hp
  cleared := by simp [h.cleared]

/-- Two held claims of one queue and kind are the same, or an interval apart. -/
theorem Spaced.eq_or_apart (h : w.Spaced shortest) {c d : QueueClaim ι} (hc : c ∈ w.claims) (hd : d ∈ w.claims)
    (hqueue : c.queue = d.queue) (hkind : c.kind = d.kind) :
    c = d ∨ c.stamp + shortest ≤ d.stamp ∨ d.stamp + shortest ≤ c.stamp := by
  by_cases hcd : c = d
  · exact .inl hcd
  have hapart : w.claims.Pairwise fun a b => a.queue = b.queue → a.kind = b.kind →
      a.stamp + shortest ≤ b.stamp ∨ b.stamp + shortest ≤ a.stamp :=
    h.gaps.imp fun hgap hqueue hkind => .inr (hgap hqueue hkind)
  have : Std.Symm fun a b : QueueClaim ι => a.queue = b.queue → a.kind = b.kind →
      a.stamp + shortest ≤ b.stamp ∨ b.stamp + shortest ≤ a.stamp :=
    ⟨fun a b hab hqueue hkind => (hab hqueue.symm hkind.symm).symm⟩
  exact .inr (hapart.forall hc hd hcd hqueue hkind)

/-- A pass that reaches its release within an interval of its claim finds no newer one. -/
theorem Spaced.noNewerClaim (h : w.Spaced shortest) {i : ι} {p : SupervisePass} (hp : w.passes i = some p)
    (hkind : p.kind = .monitor) (hprompt : w.clock < p.stamp + shortest) : w.NoNewerClaim p := by
  intro c hc hmonitor hqueue
  have hpast := h.past c hc
  rcases h.eq_or_apart hc (h.held i p hp c.queue hqueue) rfl (hmonitor.trans hkind.symm) with hc | hc | hc
  · exact Int.le_of_eq (congrArg QueueClaim.stamp hc)
  · have hstamp : c.stamp + shortest ≤ p.stamp := hc
    have hown : p.stamp ≤ w.clock := h.past _ (h.held i p hp c.queue hqueue)
    by_contra hnewer
    omega
  · have hstamp : p.stamp + shortest ≤ c.stamp := hc
    omega

/-- Claims, the claims of rows and passes stay as they were; time goes by, and passes may end. -/
structure KeepsClaims (w w' : SuperviseWorld ι) : Prop where
  claims : w'.claims = w.claims
  cleared : w'.cleared = w.cleared
  clock : w.clock ≤ w'.clock
  rows : ∀ name kind, (w'.queues name).claimOn kind = (w.queues name).claimOn kind
  passes : ∀ i p', w'.passes i = some p' →
    ∃ p, w.passes i = some p ∧ p'.kind = p.kind ∧ p'.names = p.names ∧ p'.stamp = p.stamp

theorem Spaced.keepsClaims (h : w.Spaced shortest) (hkeeps : KeepsClaims w w') : w'.Spaced shortest := by
  obtain ⟨hclaims, hcleared, hclock, hrows, hpasses⟩ := hkeeps
  constructor
  case gaps => exact hclaims ▸ h.gaps
  case past => exact fun c hc => Int.le_trans (h.past c (hclaims ▸ hc)) hclock
  case row =>
    intro c hc s hs
    rw [hrows] at hs
    exact h.row c (hclaims ▸ hc) s hs
  case free =>
    intro c hc hnone
    rw [hrows] at hnone
    exact Int.le_trans (h.free c (hclaims ▸ hc) hnone) hclock
  case held =>
    intro i p' hp' name hname
    obtain ⟨p, hp, hkind, hnames, hstamp⟩ := hpasses i p' hp'
    rw [hkind, hstamp, hclaims]
    exact h.held i p hp name (hnames ▸ hname)
  case later =>
    intro i p' hp' name hname s hs
    obtain ⟨p, hp, hkind, hnames, hstamp⟩ := hpasses i p' hp'
    rw [hrows, hkind] at hs
    rw [hkind, hstamp, hclaims]
    exact h.later i p hp name (hnames ▸ hname) s hs
  case cleared => exact hcleared ▸ h.cleared

variable [DecidableEq ι]

omit [DecidableEq ι] in
/-- A row a claim takes had no claim, or one an interval old. -/
theorem due_of_claimable {kind : ClaimKind} {interval : ℤ} {names skipped : List String} {name : String}
    (hinterval : shortest ≤ interval) (hname : name ∈ w.claimable kind interval names skipped) :
    ∀ s, (w.queues name).claimOn kind = some s → s + shortest ≤ w.clock := by
  intro s hs
  have hdue := SupervisedQueue.claimed_of_due (claimable_spec.2 name hname) hs
  omega

omit [DecidableEq ι] in
/-- The claims still held on a row that a claim takes are an interval old. -/
theorem Spaced.old_of_claimable (h : w.Spaced shortest) (hshortest : 0 < shortest) {kind : ClaimKind} {interval : ℤ}
    {names skipped : List String} (hinterval : shortest ≤ interval) {c : QueueClaim ι} (hc : c ∈ w.claims)
    (hkind : c.kind = kind) (hname : c.queue ∈ w.claimable kind interval names skipped) :
    c.stamp + shortest ≤ w.clock := by
  cases hrow : (w.queues c.queue).claimOn kind with
  | none => exact h.free c hc (hkind ▸ hrow)
  | some s =>
    have hdue := due_of_claimable hinterval hname s hrow
    rcases h.row c hc s (hkind ▸ hrow) with hs | hs
    · omega
    · omega

/-- The claim of a kind on a row, after a claim of any kind. -/
theorem claimOn_claim (w : SuperviseWorld ι) (i : ι) (kind : ClaimKind) (interval : ℤ) (names skipped : List String)
    (name : String) (kind' : ClaimKind) :
    ((w.claim i kind interval names skipped).queues name).claimOn kind' =
      if kind' = kind ∧ name ∈ w.claimable kind interval names skipped then some w.clock
      else (w.queues name).claimOn kind' := by
  simp only [claim]
  by_cases hname : name ∈ w.claimable kind interval names skipped
  · by_cases hkind : kind' = kind
    · subst hkind
      simp [hname]
    · simp [hname, hkind, SupervisedQueue.claimOn_setClaimOn_of_ne]
  · simp [hname]

theorem Spaced.claim (h : w.Spaced shortest) (hshortest : 0 < shortest) {i : ι} {kind : ClaimKind} {interval : ℤ}
    {names skipped : List String} (hinterval : shortest ≤ interval) (hidle : w.passes i = none) :
    (w.claim i kind interval names skipped).Spaced shortest := by
  have hnew : ∀ c, c ∈ (w.claim i kind interval names skipped).claims ↔
      (∃ name ∈ w.claimable kind interval names skipped, ⟨name, kind, w.clock, i⟩ = c) ∨ c ∈ w.claims := by
    intro c
    simp only [SuperviseWorld.claim, List.mem_append, List.mem_map]
  constructor
  case gaps =>
    refine List.pairwise_append.mpr ⟨?_, h.gaps, ?_⟩
    · rw [List.pairwise_map]
      exact (claimable_spec (w := w)).1.imp fun hne hqueue => absurd hqueue hne
    · rintro c hc d hd hqueue hkind
      obtain ⟨name, hname, rfl⟩ := List.mem_map.mp hc
      obtain rfl : name = d.queue := hqueue
      exact h.old_of_claimable hshortest hinterval hd hkind.symm hname
  case past =>
    intro c hc
    rcases (hnew c).mp hc with ⟨name, -, rfl⟩ | hc
    · exact Int.le_refl _
    · exact h.past c hc
  case row =>
    intro c hc s hs
    rw [claimOn_claim] at hs
    split at hs
    case isTrue htaken =>
      obtain rfl : w.clock = s := Option.some.inj hs
      rcases (hnew c).mp hc with ⟨name, -, rfl⟩ | hc
      · exact .inl rfl
      · exact .inr (h.old_of_claimable hshortest hinterval hc htaken.1 htaken.2)
    case isFalse htaken =>
      rcases (hnew c).mp hc with ⟨name, hname, rfl⟩ | hc
      · exact absurd ⟨rfl, hname⟩ htaken
      · exact h.row c hc s hs
  case free =>
    intro c hc hnone
    rw [claimOn_claim] at hnone
    split at hnone
    case isTrue => cases hnone
    case isFalse htaken =>
      rcases (hnew c).mp hc with ⟨name, hname, rfl⟩ | hc
      · exact absurd ⟨rfl, hname⟩ htaken
      · exact h.free c hc hnone
  case held =>
    intro k p hp name hname
    rcases of_passes_update hp with ⟨rfl, hthis⟩ | ⟨-, hp⟩
    · obtain rfl := Option.some.inj hthis
      exact (hnew _).mpr (.inl ⟨name, hname, rfl⟩)
    · exact (hnew _).mpr (.inr (h.held k p hp name hname))
  case later =>
    intro k p hp name hname s hs
    rw [claimOn_claim] at hs
    rcases of_passes_update hp with ⟨rfl, hthis⟩ | ⟨-, hp⟩
    · obtain rfl := Option.some.inj hthis
      rw [if_pos ⟨rfl, hname⟩] at hs
      exact .inl (Option.some.inj hs).symm
    · split at hs
      case isTrue htaken =>
        obtain rfl : w.clock = s := Option.some.inj hs
        have hown := h.past _ (h.held k p hp name hname)
        rcases Int.lt_or_eq_of_le hown with hbefore | hsame
        · exact .inr ⟨hbefore, _, (hnew _).mpr (.inl ⟨name, htaken.2, rfl⟩), rfl, htaken.1.symm, rfl⟩
        · exact .inl hsame.symm
      case isFalse =>
        rcases h.later k p hp name hname s hs with hs | ⟨hbefore, c, hc, hrest⟩
        · exact .inl hs
        · exact .inr ⟨hbefore, c, (hnew _).mpr (.inr hc), hrest⟩
  case cleared => exact h.cleared

/-- A release leaves the claims of the rows it names, or clears its own. -/
def ReleasesOwn (w : SuperviseWorld ι) (p : SupervisePass) (names : List String)
    (set : SupervisedQueue → SupervisedQueue) : Prop :=
  ∀ name ∈ names, ∀ kind, (set (w.queues name)).claimOn kind = (w.queues name).claimOn kind ∨
    kind = p.kind ∧ (w.queues name).claimOn kind = some p.stamp ∧ (set (w.queues name)).claimOn kind = none

omit [DecidableEq ι] in
theorem releasesOwn_releaseDeletionTime {p : SupervisePass} (hkind : p.kind = .maintain) (names : List String) :
    w.ReleasesOwn p names fun q => q.releaseDeletionTime p.stamp := by
  intro name hname kind
  rw [SupervisedQueue.claimOn_releaseDeletionTime]
  split
  case isTrue hown =>
    obtain ⟨rfl, hstamp⟩ := hown
    exact .inr ⟨hkind.symm, hstamp, rfl⟩
  case isFalse => exact .inl rfl

omit [DecidableEq ι] in
theorem Spaced.releasesOwn_releaseMonitorTime (h : w.Spaced shortest) {i : ι} {p : SupervisePass}
    (hp : w.passes i = some p) (hkind : p.kind = .monitor) (hnewer : w.NoNewerClaim p) :
    w.ReleasesOwn p p.names SupervisedQueue.releaseMonitorTime := by
  intro name hname kind
  cases kind with
  | maintain => exact .inl rfl
  | monitor =>
    cases hrow : (w.queues name).claimOn .monitor with
    | none => exact .inl rfl
    | some s =>
      rcases h.later i p hp name hname s (hkind ▸ hrow) with rfl | ⟨hbefore, c, hc, rfl, hmonitor, rfl⟩
      · exact .inr ⟨hkind.symm, rfl, rfl⟩
      · have hstamp := hnewer c hc (hmonitor.trans hkind) hname
        omega

theorem Spaced.release (h : w.Spaced shortest) (hshortest : 0 < shortest) {i : ι} {p : SupervisePass}
    {names : List String} {set : SupervisedQueue → SupervisedQueue} (hp : w.passes i = some p)
    (hnames : names ⊆ p.names) (hown : w.ReleasesOwn p names set) : (w.release i p names set).Spaced shortest := by
  -- a row that the release changed carried the claim of the pass, and now carries none
  have hrows : ∀ name kind, ((w.release i p names set).queues name).claimOn kind = (w.queues name).claimOn kind ∨
      name ∈ names ∧ kind = p.kind ∧ (w.queues name).claimOn kind = some p.stamp ∧
        ((w.release i p names set).queues name).claimOn kind = none := by
    intro name kind
    by_cases hname : name ∈ names
    · simp only [SuperviseWorld.release, if_pos hname]
      exact (hown name hname kind).imp_right fun h => ⟨hname, h⟩
    · simp [SuperviseWorld.release, hname]
  have hkept : ∀ c ∈ (w.release i p names set).claims, c ∈ w.claims := fun c hc => (List.mem_filter.mp hc).1
  constructor
  case gaps => exact h.gaps.filter _
  case past => exact fun c hc => h.past c (hkept c hc)
  case row =>
    intro c hc s hs
    rcases hrows c.queue c.kind with hrow | ⟨-, -, -, hnone⟩
    · exact h.row c (hkept c hc) s (hrow ▸ hs)
    · exact nomatch hnone.symm.trans hs
  case free =>
    intro c hc hnone
    rcases hrows c.queue c.kind with hrow | ⟨hname, hkind, hstamp, hcleared⟩
    · exact h.free c (hkept c hc) (hrow ▸ hnone)
    · -- a claim that stays beside the one handed back is not of the same stamp
      rcases h.row c (hkept c hc) p.stamp hstamp with hsame | hold
      · exfalso
        have hheld := h.held i p hp c.queue (hnames hname)
        rcases h.eq_or_apart (hkept c hc) hheld rfl hkind with heq | hapart | hapart
        · have howner : c.owner = i := congrArg QueueClaim.owner heq
          have hkeep := (List.mem_filter.mp hc).2
          simp only [SuperviseWorld.release, if_pos hname, hkind] at hcleared
          simp [hname, hcleared, howner, hkind, hsame] at hkeep
        · have : c.stamp + shortest ≤ p.stamp := hapart
          omega
        · have : p.stamp + shortest ≤ c.stamp := hapart
          omega
      · have hpast : p.stamp ≤ w.clock := h.past _ (h.held i p hp c.queue (hnames hname))
        exact Int.le_trans hold hpast
  case held =>
    intro k q hq name hname
    obtain ⟨hk, hq⟩ := of_ended hq
    exact List.mem_filter.mpr ⟨h.held k q hq name hname, by simp [hk]⟩
  case later =>
    intro k q hq name hname s hs
    obtain ⟨-, hq⟩ := of_ended hq
    rcases hrows name q.kind with hrow | ⟨-, -, -, hnone⟩
    · rcases h.later k q hq name hname s (hrow ▸ hs) with hs | ⟨hbefore, c, hc, rfl, hkind, rfl⟩
      · exact .inl hs
      · refine .inr ⟨hbefore, c, List.mem_filter.mpr ⟨hc, ?_⟩, rfl, hkind, rfl⟩
        simp only [Bool.not_eq_true', decide_eq_false_iff_not]
        rintro ⟨-, hpkind, -, hcname, hnone⟩
        have hs' : ((w.release i p names set).queues c.queue).claimOn q.kind = some c.stamp := hs
        simp only [SuperviseWorld.release, if_pos hcname] at hs'
        rw [← hkind, hpkind, hnone] at hs'
        cases hs'
    · exact nomatch hnone.symm.trans hs
  case cleared =>
    intro c hc
    rcases List.mem_append.mp hc with hc | hc
    · obtain ⟨name, hname, hc⟩ := List.mem_filterMap.mp hc
      rcases hown name hname p.kind with hrow | ⟨-, hstamp, hnone⟩
      · cases hclaim : (w.queues name).claimOn p.kind <;> simp [hrow, hclaim] at hc
      · rw [if_pos hnone, hstamp] at hc
        obtain rfl := Option.some.inj hc
        rfl
    · exact h.cleared c hc

theorem Spaced.step {mayRecord : SuperviseWorld ι → SupervisePass → ℕ → Prop} (h : w.Spaced shortest)
    (hshortest : 0 < shortest) (hstep : w.Step shortest NoNewerClaim mayRecord w') : w'.Spaced shortest := by
  cases hstep with
  | tick now hnow =>
    exact h.keepsClaims ⟨rfl, rfl, hnow, fun _ _ => rfl, fun i p hp => ⟨p, hp, rfl, rfl, rfl⟩⟩
  | claim i kind interval names skipped hidle hinterval => exact h.claim hshortest hinterval hidle
  | count i p jobNow passSeconds snapshot hp hkind hserial =>
    refine h.keepsClaims ⟨rfl, rfl, Int.le_refl _, fun name kind => ?_, fun k q hq => ?_⟩
    · simp only [count]
      split
      · cases kind <;> rfl
      · rfl
    · rcases of_passes_update hq with ⟨rfl, hthis⟩ | ⟨-, hq⟩
      · obtain rfl := Option.some.inj hthis
        exact ⟨p, hp, rfl, rfl, rfl⟩
      · exact ⟨q, hq, rfl, rfl, rfl⟩
  | loseLock i p hp hkind hserial hmay =>
    exact h.release hshortest hp (List.Subset.refl _) (h.releasesOwn_releaseMonitorTime hp hkind hmay)
  | record i p serial hp hserial hmay =>
    refine h.keepsClaims ⟨rfl, rfl, Int.le_refl _, fun _ _ => rfl, fun k q hq => ?_⟩
    exact ⟨q, (of_ended hq).2, rfl, rfl, rfl⟩
  | handBack i p names hp hkind hnames =>
    exact h.release hshortest hp hnames (releasesOwn_releaseDeletionTime hkind names)
  | finish i =>
    refine h.keepsClaims ⟨rfl, rfl, Int.le_refl _, fun _ _ => rfl, fun k q hq => ?_⟩
    exact ⟨q, (of_ended hq).2, rfl, rfl, rfl⟩
  | refresh name jobNow =>
    refine h.keepsClaims ⟨rfl, rfl, Int.le_refl _, fun other kind => ?_, fun i p hp => ⟨p, hp, rfl, rfl, rfl⟩⟩
    by_cases hother : other = name
    · subst hother
      simp only [Function.update_self]
      cases kind <;> rfl
    · simp only [Function.update_of_ne hother]

theorem Run.spaced {mayRecord : SuperviseWorld ι → SupervisePass → ℕ → Prop} (hshortest : 0 < shortest)
    (hstart : w₀.Start) (hrun : Run shortest NoNewerClaim mayRecord w₀ w) : w.Spaced shortest := by
  induction hrun with
  | refl => exact hstart.spaced
  | tail _ hstep ih => exact ih.step hshortest hstep

/-- Where no pass loses the stats lock under a newer claim, a release clears a claim of its own pass only, and the
claims of a queue that are still held are an interval apart. -/
theorem claims_apart {mayRecord : SuperviseWorld ι → SupervisePass → ℕ → Prop} (hshortest : 0 < shortest)
    (hstart : w₀.Start) (hrun : Run shortest NoNewerClaim mayRecord w₀ w) :
    (∀ c ∈ w.cleared, c.was = c.stamp) ∧
      w.claims.Pairwise fun later earlier =>
        later.queue = earlier.queue → later.kind = earlier.kind → earlier.stamp + shortest ≤ later.stamp :=
  have hspaced := hrun.spaced hshortest hstart
  ⟨hspaced.cleared, hspaced.gaps⟩

/-- No instance has claimed a queue. -/
def unclaimed : SuperviseWorld (Fin 3) := { queues := fun _ => {}, clock := 0, passes := fun _ => none }

theorem unclaimed_start : unclaimed.Start := ⟨fun _ => rfl, rfl, rfl, fun _ => rfl, rfl, rfl⟩

/-- A pass that loses the lock one second in hands the queue to another instance. -/
theorem claims_apart_promptRelease :
    ∃ w : SuperviseWorld (Fin 3), (w.claims.map QueueClaim.stamp = [microsPerSecond] ∧
      w.cleared = [⟨"q", .monitor, 0, 0⟩]) ∧ (∀ c ∈ w.cleared, c.was = c.stamp) ∧
      w.claims.Pairwise fun later earlier =>
        later.queue = earlier.queue → later.kind = earlier.kind → earlier.stamp + 60 * microsPerSecond ≤ later.stamp := by
  let pass : SupervisePass := { kind := .monitor, names := ["q"], stamp := 0 }
  let w₁ := unclaimed.claim 0 .monitor (60 * microsPerSecond) ["q"] []
  let w₂ := { w₁ with clock := microsPerSecond }
  let w₃ := w₂.loseLock 0 pass
  have hrun : Run (60 * microsPerSecond) NoNewerClaim (fun _ _ _ => True) unclaimed
      (w₃.claim 1 .monitor (60 * microsPerSecond) ["q"] []) :=
    .tail (.tail (.tail (.single (.claim 0 .monitor _ ["q"] [] rfl (by decide))) (.tick microsPerSecond (by decide)))
      (.loseLock 0 pass rfl rfl rfl (by unfold NoNewerClaim; decide))) (.claim 1 .monitor _ ["q"] [] rfl (by decide))
  exact ⟨_, ⟨by decide, by decide⟩, claims_apart (by decide) unclaimed_start hrun⟩

/-- A pass that loses the lock after its claim has lapsed clears the claim another instance has made since, and a
third instance claims the queue while the second still works. -/
theorem lapsedRelease_clears : ∃ w : SuperviseWorld (Fin 3),
    Run (60 * microsPerSecond) (fun _ _ => True) (fun _ _ _ => True) unclaimed w ∧
      ¬ (∀ c ∈ w.cleared, c.was = c.stamp) ∧
      ¬ w.claims.Pairwise fun later earlier =>
        later.queue = earlier.queue → later.kind = earlier.kind → earlier.stamp + 60 * microsPerSecond ≤ later.stamp := by
  let pass : SupervisePass := { kind := .monitor, names := ["q"], stamp := 0 }
  let w₁ := unclaimed.claim 0 .monitor (60 * microsPerSecond) ["q"] []
  let w₂ := { w₁ with clock := 60 * microsPerSecond }
  let w₃ := w₂.claim 1 .monitor (60 * microsPerSecond) ["q"] []
  let w₄ := w₃.loseLock 0 pass
  let w₅ := { w₄ with clock := 62 * microsPerSecond }
  have hlapsed : Run (60 * microsPerSecond) (fun _ _ => True) (fun _ _ _ => True) unclaimed w₃ :=
    .tail (.tail (.single (.claim 0 .monitor _ ["q"] [] rfl (by decide))) (.tick (60 * microsPerSecond) (by decide)))
      (.claim 1 .monitor _ ["q"] [] rfl (by decide))
  have hcleared : Run (60 * microsPerSecond) (fun _ _ => True) (fun _ _ _ => True) w₃
      (w₅.claim 2 .monitor (60 * microsPerSecond) ["q"] []) :=
    .tail (.tail (.single (.loseLock 0 pass rfl rfl rfl trivial)) (.tick (62 * microsPerSecond) (by decide)))
      (.claim 2 .monitor _ ["q"] [] rfl (by decide))
  exact ⟨_, hlapsed.trans hcleared, by decide, by decide⟩

end SuperviseWorld

end PgBoss
