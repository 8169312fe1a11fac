import PgBoss.Contractor.Start

/-!
# Which version a plan meets

The guard of a migration compares the stored version with the version it goes to, and not with the one
it starts from. Where the lock finds one of these two, every schema is what its version says. A third
version comes from another release alone: instances of one release never meet it.
-/

namespace PgBoss

namespace Deploy

variable {ι σ : Type*} [DecidableEq ι] {chain : MigrationChain σ} {release : ι → Release chain}
  {may : Deploy ι σ → ι → Prop} {w w' w₀ : Deploy ι σ}

/-- The lock finds the version that the plan starts from, or the one it goes to; or, for an install that lost, no older
one than its own. -/
def Expected (release : ι → Release chain) (w : Deploy ι σ) (i : ι) : Prop :=
  ∀ s, w.stored = some s →
    match w.instances i with
    | .create => (release i).schemaVersion ≤ s.version
    | .migrate version _ => s.version = version ∨ s.version = (release i).schemaVersion
    | _ => True

/-- What every reachable state keeps. -/
structure Kept (release : ι → Release chain) (w : Deploy ι σ) : Prop where
  built : ∀ s, w.stored = some s → s.commands = chain.upTo s.version
  plans : ∀ i version plan, w.instances i = .migrate version plan →
    version < (release i).schemaVersion ∧ migrateCommands (release i).migrations version = some plan
  resolved : ∀ i, w.instances i = .resolved → ∃ s, w.stored = some s ∧ (release i).schemaVersion ≤ s.version
  commits : ∀ c ∈ w.commits, c.found = c.planned

omit [DecidableEq ι] in
theorem Start.kept (h : w.Start chain) : w.Kept release where
  built := h.built
  plans i _ _ hi := nomatch (h.starting i).symm.trans hi
  resolved i hi := nomatch (h.starting i).symm.trans hi
  commits _ hc := nomatch h.commits ▸ hc

/-- An instance waits for what its step left it, or for what it did before. -/
theorem of_goOn {i k : ι} {wait x : StartWait σ} (h : (w.goOn i wait).instances k = x) :
    (k = i ∧ wait = x) ∨ (k ≠ i ∧ w.instances k = x) := by
  have hupdate : Function.update w.instances i wait k = x := h
  by_cases hk : k = i
  · subst hk
    rw [Function.update_self] at hupdate
    exact .inl ⟨rfl, hupdate⟩
  · rw [Function.update_of_ne hk] at hupdate
    exact .inr ⟨hk, hupdate⟩

/-- An instance that goes on without touching what is stored. -/
theorem Kept.goOn (h : w.Kept release) {i : ι} {wait : StartWait σ}
    (hplan : ∀ version plan, wait = .migrate version plan →
      version < (release i).schemaVersion ∧ migrateCommands (release i).migrations version = some plan)
    (hresolved : wait = .resolved → ∃ s, w.stored = some s ∧ (release i).schemaVersion ≤ s.version) :
    (w.goOn i wait).Kept release where
  built := h.built
  plans k version plan hk := by
    rcases of_goOn hk with ⟨rfl, hwait⟩ | ⟨-, hk⟩
    · exact hplan version plan hwait
    · exact h.plans k version plan hk
  resolved k hk := by
    rcases of_goOn hk with ⟨rfl, hwait⟩ | ⟨-, hk⟩
    · exact hresolved hwait
    · exact h.resolved k hk
  commits := h.commits

/-- A transaction that commits leaves the schema of the release's version, none older than before. -/
theorem Kept.store (h : w.Kept release) {i : ι} {s' : Installed σ} {commits : List MigrationCommit}
    (hversion : s'.version = (release i).schemaVersion) (hbuilt : s'.commands = chain.upTo s'.version)
    (hgrows : ∀ s, w.stored = some s → s.version ≤ s'.version) (hcommits : ∀ c ∈ commits, c.found = c.planned) :
    Kept release { w.goOn i .resolved with stored := some s', commits := commits } where
  built s hs := Option.some.inj hs ▸ hbuilt
  plans k version plan hk := by
    rcases of_goOn hk with ⟨-, hwait⟩ | ⟨-, hk⟩
    · cases hwait
    · exact h.plans k version plan hk
  resolved k hk := by
    refine ⟨s', rfl, ?_⟩
    rcases of_goOn hk with ⟨rfl, -⟩ | ⟨-, hk⟩
    · exact hversion.ge
    · obtain ⟨s, hs, hle⟩ := h.resolved k hk
      exact hle.trans (hgrows s hs)
  commits := hcommits

theorem Kept.create (h : w.Kept release) {i : ι} (hi : w.instances i = .create) (hmay : Expected release w i) :
    (w.create release i).Kept release := by
  unfold Deploy.create
  split
  case h_1 s hs =>
    have hold := hmay s hs
    rw [hi] at hold
    exact h.goOn nofun fun _ => ⟨s, hs, hold⟩
  case h_2 hnone =>
    exact h.store rfl (release i).upTo_schemaVersion.symm (fun s hs => nomatch hnone.symm.trans hs) h.commits

theorem Kept.migrate (h : w.Kept release) {i : ι} {version : ℕ} {plan : List σ × ℕ}
    (hi : w.instances i = .migrate version plan) {s : Installed σ} (hs : w.stored = some s) {succeeds : Bool}
    (hmay : succeeds = true → Expected release w i) : (w.migrate i version plan s succeeds).Kept release := by
  obtain ⟨hahead, hplan⟩ := h.plans i version plan hi
  obtain ⟨htarget, hcommands⟩ := (release i).upTo_append_of_migrateCommands hahead hplan
  unfold Deploy.migrate
  split
  case isTrue hraced => exact h.goOn nofun fun _ => ⟨s, hs, (hraced.trans htarget).ge⟩
  case isFalse hbehind =>
    split
    case isFalse => exact h.goOn nofun nofun
    case isTrue hsucceeds =>
      have hexpected := hmay hsucceeds s hs
      rw [hi] at hexpected
      -- the guard leaves the version that the plan starts from
      have hfound : s.version = version := hexpected.resolve_right fun hsame => hbehind (hsame.trans htarget.symm)
      refine h.store htarget ?_ (fun t ht => ?_) fun c hc => ?_
      · rw [h.built s hs, hfound, hcommands, htarget]
      · obtain rfl := Option.some.inj (hs.symm.trans ht)
        rw [hfound, htarget]
        exact hahead.le
      · rcases List.mem_cons.mp hc with rfl | hc
        · exact hfound
        · exact h.commits c hc

theorem Kept.step (h : w.Kept release) (hstep : Step release (Expected release) w w') : w'.Kept release := by
  cases hstep with
  | isInstalled i hi =>
    refine h.goOn (fun version plan hwait => ?_) fun hwait => ?_ <;> split at hwait <;> cases hwait
  | schemaVersion i hi s hs =>
    refine h.goOn (fun version plan hwait => ?_) fun hwait => ?_
    · unfold planned at hwait
      split at hwait
      case isTrue hahead =>
        split at hwait
        case h_1 plan' hplan =>
          cases hwait
          exact ⟨hahead, hplan⟩
        case h_2 => cases hwait
      case isFalse => cases hwait
    · unfold planned at hwait
      split at hwait
      case isTrue => split at hwait <;> cases hwait
      case isFalse hnot => exact ⟨s, hs, not_lt.mp hnot⟩
  | create i hi hmay => exact h.create hi hmay
  | migrate i version plan hi s hs succeeds hmay => exact h.migrate hi hs hmay
  | fail i hi => exact h.goOn nofun nofun

theorem Run.kept (hstart : w₀.Start chain) (hrun : Run release (Expected release) w₀ w) : w.Kept release := by
  induction hrun with
  | refl => exact hstart.kept
  | tail _ hstep ih => exact ih.step hstep

/-- The stored version never decreases. -/
theorem Kept.version_le (h : w.Kept release) (hstep : Step release (Expected release) w w') {s : Installed σ}
    (hs : w.stored = some s) : ∃ s', w'.stored = some s' ∧ s.version ≤ s'.version := by
  cases hstep with
  | create i hi hmay =>
    refine ⟨s, ?_, le_rfl⟩
    rw [Deploy.create, hs]
    exact hs
  | migrate i version plan hi t ht succeeds hmay =>
    obtain rfl := Option.some.inj (hs.symm.trans ht)
    obtain ⟨hahead, hplan⟩ := h.plans i version plan hi
    obtain ⟨htarget, -⟩ := (release i).upTo_append_of_migrateCommands hahead hplan
    unfold Deploy.migrate
    split
    case isTrue => exact ⟨s, hs, le_rfl⟩
    case isFalse hbehind =>
      split
      case isFalse => exact ⟨s, hs, le_rfl⟩
      case isTrue hsucceeds =>
        have hexpected := hmay hsucceeds s hs
        rw [hi] at hexpected
        have hfound : s.version = version := hexpected.resolve_right fun hsame => hbehind (hsame.trans htarget.symm)
        exact ⟨_, rfl, hfound.le.trans (hahead.le.trans htarget.ge)⟩
  | _ => exact ⟨s, hs, le_rfl⟩

theorem Run.version_le (hkept : w.Kept release) (hrun : Run release (Expected release) w w') {s : Installed σ}
    (hs : w.stored = some s) : ∃ s', w'.stored = some s' ∧ s.version ≤ s'.version := by
  have hboth : w'.Kept release ∧ ∃ s', w'.stored = some s' ∧ s.version ≤ s'.version := by
    induction hrun with
    | refl => exact ⟨hkept, s, hs, le_rfl⟩
    | tail _ hstep ih =>
      obtain ⟨hbefore, t, ht, hle⟩ := ih
      obtain ⟨s', hs', hle'⟩ := hbefore.version_le hstep ht
      exact ⟨hbefore.step hstep, s', hs', hle.trans hle'⟩
  exact hboth.2

/-- A start that fails leaves the schema and its version. -/
theorem Step.stored_of_failed (hstep : Step release may w w') {i : ι} (hbefore : w.instances i ≠ .failed)
    (hafter : w'.instances i = .failed) : w'.stored = w.stored := by
  have hother : ∀ {k : ι}, (w.goOn k .resolved).instances i ≠ .failed := by
    intro k hk
    rcases of_goOn hk with ⟨-, hwait⟩ | ⟨-, hi⟩
    · cases hwait
    · exact hbefore hi
  cases hstep with
  | create k hk hmay =>
    unfold Deploy.create at hafter ⊢
    split at hafter
    · rfl
    · exact absurd hafter hother
  | migrate k version plan hk s hs succeeds hmay =>
    unfold Deploy.migrate at hafter ⊢
    split
    · rfl
    case isFalse hbehind =>
      rw [if_neg hbehind] at hafter
      split
      · rw [if_pos ‹_›] at hafter
        exact absurd hafter hother
      · rfl
  | _ => rfl

/-- In a deploy of one release, an instance about to transact meets the version it read or the one it goes to. -/
structure OneRelease (release : ι → Release chain) (w : Deploy ι σ) : Prop where
  creating : ∀ i, w.instances i = .create → ∀ s, w.stored = some s → s.version = (release i).schemaVersion
  migrating : ∀ i version plan, w.instances i = .migrate version plan →
    plan.2 = (release i).schemaVersion ∧
      ∃ s, w.stored = some s ∧ (s.version = version ∨ s.version = (release i).schemaVersion)

omit [DecidableEq ι] in
theorem OneRelease.expected (h : w.OneRelease release) (i : ι) : Expected release w i := by
  intro s hs
  split
  case h_1 hi => exact (h.creating i hi s hs).ge
  case h_2 version plan hi =>
    obtain ⟨-, t, ht, hversion⟩ := h.migrating i version plan hi
    obtain rfl := Option.some.inj (hs.symm.trans ht)
    exact hversion
  case h_3 => trivial

omit [DecidableEq ι] in
theorem Start.oneRelease (h : w.Start chain) : w.OneRelease release where
  creating i hi := nomatch (h.starting i).symm.trans hi
  migrating i _ _ hi := nomatch (h.starting i).symm.trans hi

/-- An instance that goes on without touching what is stored. -/
theorem OneRelease.goOn (h : w.OneRelease release) {i : ι} {wait : StartWait σ}
    (hcreate : wait = .create → w.stored = none)
    (hmigrate : ∀ version plan, wait = .migrate version plan →
      plan.2 = (release i).schemaVersion ∧ ∃ s, w.stored = some s ∧ s.version = version) :
    (w.goOn i wait).OneRelease release where
  creating k hk s hs := by
    rcases of_goOn hk with ⟨-, hwait⟩ | ⟨-, hk⟩
    · exact nomatch (hcreate hwait).symm.trans hs
    · exact h.creating k hk s hs
  migrating k version plan hk := by
    rcases of_goOn hk with ⟨rfl, hwait⟩ | ⟨-, hk⟩
    · obtain ⟨htarget, s, hs, hversion⟩ := hmigrate version plan hwait
      exact ⟨htarget, s, hs, .inl hversion⟩
    · exact h.migrating k version plan hk

/-- A transaction that commits stores the version that all of them go to. -/
theorem OneRelease.store (h : w.OneRelease release) (hone : ∀ i k, (release i).schemaVersion = (release k).schemaVersion)
    {i : ι} {s' : Installed σ} {commits : List MigrationCommit} (hversion : s'.version = (release i).schemaVersion) :
    OneRelease release { w.goOn i .resolved with stored := some s', commits := commits } where
  creating k _ s hs := by
    obtain rfl := Option.some.inj hs
    exact hversion.trans (hone i k)
  migrating k version plan hk := by
    rcases of_goOn hk with ⟨-, hwait⟩ | ⟨-, hk⟩
    · cases hwait
    · exact ⟨(h.migrating k version plan hk).1, s', rfl, .inr (hversion.trans (hone i k))⟩

theorem OneRelease.step (h : w.OneRelease release)
    (hone : ∀ i k, (release i).schemaVersion = (release k).schemaVersion) (hstep : Step release may w w') :
    w'.OneRelease release := by
  cases hstep with
  | isInstalled i hi =>
    refine h.goOn (fun hwait => ?_) fun version plan hwait => ?_ <;> split at hwait <;> try cases hwait
    exact Option.not_isSome_iff_eq_none.mp ‹_›
  | schemaVersion i hi s hs =>
    refine h.goOn (fun hwait => ?_) fun version plan hwait => ?_ <;> unfold planned at hwait <;> split at hwait
    · split at hwait <;> cases hwait
    · cases hwait
    case isTrue hahead =>
      split at hwait
      case h_1 plan' hplan =>
        cases hwait
        exact ⟨((release i).upTo_append_of_migrateCommands hahead hplan).1, s, hs, rfl⟩
      case h_2 => cases hwait
    · cases hwait
  | create i hi hmay =>
    unfold Deploy.create
    split
    · exact h.goOn nofun nofun
    · exact h.store hone rfl
  | migrate i version plan hi s hs succeeds hmay =>
    unfold Deploy.migrate
    split
    · exact h.goOn nofun nofun
    · split
      · exact h.store hone (h.migrating i version plan hi).1
      · exact h.goOn nofun nofun
  | fail i hi => exact h.goOn nofun nofun

/-- Instances of one release meet the condition in every run. -/
theorem Run.expected_of_oneRelease (hone : ∀ i k, (release i).schemaVersion = (release k).schemaVersion)
    (hstart : w₀.Start chain) (hrun : Run release may w₀ w) : Run release (Expected release) w₀ w := by
  have hboth : Run release (Expected release) w₀ w ∧ w.OneRelease release := by
    induction hrun with
    | refl => exact ⟨.refl, hstart.oneRelease⟩
    | tail _ hstep ih =>
      obtain ⟨hbefore, hsole⟩ := ih
      refine ⟨hbefore.tail ?_, hsole.step hone hstep⟩
      cases hstep with
      | isInstalled i hi => exact .isInstalled i hi
      | schemaVersion i hi s hs => exact .schemaVersion i hi s hs
      | create i hi hmay => exact .create i hi (hsole.expected i)
      | migrate i version plan hi s hs succeeds hmay => exact .migrate i version plan hi s hs succeeds fun _ => hsole.expected i
      | fail i hi => exact .fail i hi
  exact hboth.1

/-- Where every lock finds the version that the plan starts from or the one it goes to, or a step fails, and an install
that lost finds no older one than its own: every migration commits on the version it was planned from, the schema is
what its version says, the version never decreases, an instance that started has it at its own or above, and one that
failed has changed nothing. -/
theorem migrations_inOrder (hstart : w₀.Start chain) (hrun : Run release (Expected release) w₀ w) :
    (∀ c ∈ w.commits, c.found = c.planned) ∧
      (∀ s, w.stored = some s → s.commands = chain.upTo s.version) ∧
      (∀ w', Run release (Expected release) w w' → ∀ s, w.stored = some s →
        ∃ s', w'.stored = some s' ∧ s.version ≤ s'.version) ∧
      (∀ i, w.instances i = .resolved → ∃ s, w.stored = some s ∧ (release i).schemaVersion ≤ s.version) ∧
      ∀ w', Step release (Expected release) w w' → ∀ i, w.instances i ≠ .failed → w'.instances i = .failed →
        w'.stored = w.stored := by
  have hkept := hrun.kept hstart
  exact ⟨hkept.commits, hkept.built, fun w' hrun' s hs => hrun'.version_le hkept hs, hkept.resolved,
    fun w' hstep i hbefore hafter => hstep.stored_of_failed hbefore hafter⟩

section RollingDeploy

/-- Three migrations, and releases that carry two and three of them. -/
def threeMigrations : MigrationChain ℕ where
  migrations := [⟨39, 38, [39]⟩, ⟨40, 39, [40]⟩, ⟨41, 40, [41]⟩]
  versions := by decide
  ordered := by decide

def older : Release threeMigrations := ⟨[⟨39, 38, [39]⟩, ⟨40, 39, [40]⟩], 40, ⟨[⟨41, 40, [41]⟩], rfl⟩, rfl⟩

def newer : Release threeMigrations := ⟨threeMigrations.migrations, 41, List.prefix_rfl, rfl⟩

/-- An instance of each. -/
def rolling (isNewer : Bool) : Release threeMigrations := if isNewer then newer else older

def at38 : Deploy Bool ℕ := { stored := some ⟨38, []⟩, instances := fun _ => .isInstalled }

theorem at38_start : at38.Start threeMigrations where
  built _ hs := Option.some.inj hs ▸ rfl
  starting _ := rfl
  commits := rfl

/-- What the two instances wait for after both read the version. -/
def bothPlanned : Bool → StartWait ℕ
  | true => .migrate 38 ([39, 40, 41], 41)
  | false => .migrate 38 ([39, 40], 40)

/-- Both instances read version 38. -/
theorem bothPlanned_run (may : Deploy Bool ℕ → Bool → Prop) :
    Run rolling may at38 { at38 with instances := bothPlanned } := by
  have hnewer : planned 38 (rolling true) = bothPlanned true := by
    have hplan : migrateCommands (rolling true).migrations 38 = some ([39, 40, 41], 41) := by decide
    rw [planned, if_pos (by decide), hplan]
    rfl
  have holder : planned 38 (rolling false) = bothPlanned false := by
    have hplan : migrateCommands (rolling false).migrations 38 = some ([39, 40], 40) := by decide
    rw [planned, if_pos (by decide), hplan]
    rfl
  have hprobed : Run rolling may at38 ((at38.goOn true .schemaVersion).goOn false .schemaVersion) :=
    (Relation.ReflTransGen.single (.isInstalled true rfl)).tail (.isInstalled false rfl)
  have hread := (hprobed.tail (.schemaVersion true rfl ⟨38, []⟩ rfl)).tail (.schemaVersion false rfl ⟨38, []⟩ rfl)
  have hsame : (((at38.goOn true .schemaVersion).goOn false .schemaVersion).goOn true (planned 38 (rolling true))).goOn false
      (planned 38 (rolling false)) = { at38 with instances := bothPlanned } := by
    rw [hnewer, holder]
    refine congrArg (fun instances : Bool → StartWait ℕ => Deploy.mk at38.stored instances at38.commits)
      (funext fun isNewer => ?_)
    cases isNewer <;> rfl
  exact hsame ▸ hread

/-- The newer instance migrates, and the older one stops short of a step. -/
theorem migrations_inOrder_newerFirst : ∃ w : Deploy Bool ℕ, w.stored = some ⟨41, [39, 40, 41]⟩ ∧
    w.commits = [⟨38, 38⟩] ∧ (∀ c ∈ w.commits, c.found = c.planned) ∧
      (∀ i, w.instances i = .resolved → ∃ s, w.stored = some s ∧ (rolling i).schemaVersion ≤ s.version) := by
  have hnewer := (bothPlanned_run (Expected rolling)).tail
    (.migrate true 38 ([39, 40, 41], 41) rfl ⟨38, []⟩ rfl true fun _ s hs => .inl (Option.some.inj hs ▸ rfl))
  have holder := hnewer.tail (.migrate false 38 ([39, 40], 40) rfl ⟨41, [39, 40, 41]⟩ rfl false nofun)
  obtain ⟨hcommits, -, -, hresolved, -⟩ := migrations_inOrder at38_start holder
  exact ⟨_, rfl, rfl, hcommits, hresolved⟩

/-- The newer instance migrates first, and the older one then runs its steps again and takes the version back. -/
theorem olderPlan_rerunsSteps : ∃ w w' : Deploy Bool ℕ, Run rolling (fun _ _ => True) at38 w ∧
    Step rolling (fun _ _ => True) w w' ∧ w.stored = some ⟨41, [39, 40, 41]⟩ ∧
      w'.stored = some ⟨40, [39, 40, 41, 39, 40]⟩ ∧ w'.commits = [⟨38, 41⟩, ⟨38, 38⟩] ∧
      ¬ (∀ c ∈ w'.commits, c.found = c.planned) ∧
      ¬ ∀ i, w'.instances i = .resolved → ∃ s, w'.stored = some s ∧ (rolling i).schemaVersion ≤ s.version := by
  have hnewer := (bothPlanned_run fun _ _ => True).tail
    (.migrate true 38 ([39, 40, 41], 41) rfl ⟨38, []⟩ rfl true fun _ => trivial)
  refine ⟨_, _, hnewer, .migrate false 38 ([39, 40], 40) rfl ⟨41, [39, 40, 41]⟩ rfl true fun _ => trivial, rfl, rfl, rfl,
    fun hcommits => ?_, fun hresolved => ?_⟩
  · exact absurd (hcommits ⟨38, 41⟩ List.mem_cons_self) (by decide)
  · obtain ⟨s, hs, hle⟩ := hresolved true rfl
    obtain rfl := Option.some.inj hs
    exact absurd hle (by decide)

end RollingDeploy

end Deploy

end PgBoss
