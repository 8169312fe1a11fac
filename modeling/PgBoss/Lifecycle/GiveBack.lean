import PgBoss.Lifecycle.Run
import PgBoss.Manager.Fetch

/-!
# Giving a job back

`#fetch` and `work()` give back the jobs of a batch that exceed a group limit, by `restore`,
which matches name and id and nothing else. It undoes the batch's own claims as long as nothing
ended one of them in between. A claim that was not given back stays unrepeatable: a restored
job forgets that it was started, but the claims standing on it are all below its count.

When a complete, cancel, fail or expiry has ended the claim, the restore makes the job
`created` whatever it has become, even if another worker runs it by then.
-/

namespace PgBoss

open Relational Relation

/-- The tables, the claims handed out and not given back, those of them a statement has ended,
and every name and id a job has had. -/
structure ClaimWorld where
  db : Database
  standing : List (JobKey × ℕ) := []
  ended : List (JobKey × ℕ) := []
  seen : List JobKey

/-- The claims a batch gives back. -/
def givenClaims (name : String) (given : List JobAttempt) : List (JobKey × ℕ) :=
  given.map fun a => ((name, a.id), a.retryCount)

/-- The standing claims whose job was active under them before a statement and is not after it. -/
def ClaimWorld.endedBy (w : ClaimWorld) (db' : Database) : List (JobKey × ℕ) :=
  w.standing.filter fun c => w.db.jobs.any fun j => decide (j.claim = c ∧ j.state = .active) &&
    db'.jobs.any fun r => decide (r.jobKey = c.1 ∧ r.state ≠ .active)

/-- The world after a statement other than a give-back. -/
def ClaimWorld.next (w : ClaimWorld) (s : Statement) (db' : Database) : ClaimWorld where
  db := db'
  standing := (s.claimed w.db).map Job.claim ++ w.standing
  ended := w.endedBy db' ++ w.ended
  seen := (s.adds w.db).map Job.jobKey ++ w.seen

/-- The world after a give-back. -/
def ClaimWorld.giveBack (w : ClaimWorld) (name : String) (given : List JobAttempt) (db' : Database) : ClaimWorld :=
  { w with db := db', standing := w.standing.filter fun c => decide (c ∉ givenClaims name given) }

/-- The claims are the batch's own, one for each job: handed out, and not given back before. -/
def ClaimWorld.Own (w : ClaimWorld) (name : String) (given : List JobAttempt) : Prop :=
  (∀ c ∈ givenClaims name given, c ∈ w.standing) ∧ (given.map JobAttempt.id).Nodup

/-- No statement has ended one of the claims, its job being in the table still. -/
def ClaimWorld.Unended (w : ClaimWorld) (name : String) (given : List JobAttempt) : Prop :=
  ∀ c ∈ givenClaims name given, (∃ j ∈ w.db.jobs, j.jobKey = c.1) → c ∉ w.ended

/-- Statements in any order, with give-backs of claims nothing has ended. -/
inductive ClaimWorld.Step (w : ClaimWorld) : ClaimWorld → Prop
  | exec (s : Statement) (db' : Database) (hrestore : s.isRestore = false)
    (hfresh : ∀ r ∈ s.adds w.db, r.jobKey ∉ w.seen) (hrun : s.exec w.db = .ok db') : Step w (w.next s db')
  | giveBack (name : String) (given : List JobAttempt) (db' : Database) (ids : List Uuid)
    (hown : w.Own name given) (hunended : w.Unended name given)
    (hrun : restoreJobs name (given.map JobAttempt.id) w.db = .ok (db', ids)) : Step w (w.giveBack name given db')

/-- A world nothing has happened in. -/
structure ClaimWorld.Start (w : ClaimWorld) : Prop where
  allowed : w.db.Allowed
  standing : w.standing = []
  ended : w.ended = []
  seen : ∀ j ∈ w.db.jobs, j.jobKey ∈ w.seen

/-- The job is active under one of the claims given back, which stands and is its latest. -/
def ClaimWorld.ActiveUnder (w : ClaimWorld) (name : String) (given : List JobAttempt) (j : Job) : Prop :=
  j.state = .active ∧ j.claim ∈ givenClaims name given ∧ ∀ c ∈ w.standing, c.1 = j.jobKey → c.2 ≤ j.retryCount

/-- What such a run keeps. -/
structure ClaimWorld.Kept (w : ClaimWorld) : Prop where
  allowed : w.db.Allowed
  seen : ∀ j ∈ w.db.jobs, j.jobKey ∈ w.seen
  claimed : ∀ c ∈ w.standing, c.1 ∈ w.seen
  ended_seen : ∀ c ∈ w.ended, c.1 ∈ w.seen
  counted : ∀ c ∈ w.standing, ∀ j ∈ w.db.jobs, j.jobKey = c.1 →
    c.2 ≤ j.retryCount ∧ (j.startedOn = none → c.2 < j.retryCount)
  distinct : w.standing.Pairwise fun a b => a.1 = b.1 → a.2 ≠ b.2
  unended : ∀ c ∈ w.standing, c ∉ w.ended → ∀ j ∈ w.db.jobs, j.jobKey = c.1 →
    j.state = .active ∧ j.retryCount = c.2
  ended : ∀ c ∈ w.ended, ∀ j ∈ w.db.jobs, j.jobKey = c.1 →
    c ∈ w.standing ∧ (j.state = .active → j.retryCount ≠ c.2)

variable {w₀ w : ClaimWorld} {s : Statement} {db' : Database}

theorem ClaimWorld.Start.kept (h : w.Start) : w.Kept where
  allowed := h.allowed
  seen := h.seen
  claimed c hc := by simp [h.standing] at hc
  ended_seen c hc := by simp [h.ended] at hc
  counted c hc := by simp [h.standing] at hc
  distinct := by simp [h.standing]
  unended c hc := by simp [h.standing] at hc
  ended c hc := by simp [h.ended] at hc

section Steps

/-- A claim takes a count above every claim standing on the job. -/
theorem ClaimWorld.Kept.claim_count (h : w.Kept) (now : Timestamp) {j : Job} (hj : j ∈ w.db.jobs) {c : JobKey × ℕ}
    (hc : c ∈ w.standing) (hkey : j.jobKey = c.1) : c.2 < (claimSet now j).retryCount := by
  obtain ⟨hle, hlt⟩ := h.counted c hc j hj hkey
  simp only [claimSet]
  cases hstart : j.startedOn with
  | none => simpa using hlt hstart
  | some t => simpa using Nat.lt_succ_of_le hle

/-- A statement other than a give-back keeps it. -/
theorem ClaimWorld.Kept.exec (h : w.Kept) (hrestore : s.isRestore = false)
    (hfresh : ∀ r ∈ s.adds w.db, r.jobKey ∉ w.seen) (hexec : s.exec w.db = .ok db') : (w.next s db').Kept := by
  have hallowed := (s.exec_effect h.allowed hexec).allowed
  obtain ⟨hclaimed, hpairwise⟩ := claimed_spec h.allowed hexec
  have hrow := fun {r : Job} (hr : r ∈ db'.jobs) => row_origin h.allowed hrestore hexec hr
  have hold : ∀ {c : JobKey × ℕ} {r : Job}, c.1 ∈ w.seen → r.jobKey = c.1 → r ∉ s.adds w.db :=
    fun hseen hkey hadd => hfresh _ hadd (hkey ▸ hseen)
  have hended : ∀ {c : JobKey × ℕ}, c ∈ w.endedBy db' → c ∈ w.standing ∧
      ∃ r ∈ db'.jobs, r.jobKey = c.1 ∧ r.state ≠ .active := by
    intro c hc
    obtain ⟨hstanding, hany⟩ := List.mem_filter.mp hc
    obtain ⟨j, -, hj⟩ := List.any_eq_true.mp hany
    obtain ⟨r, hr, hrstate⟩ := List.any_eq_true.mp (Bool.and_eq_true _ _ ▸ hj).2
    exact ⟨hstanding, r, hr, of_decide_eq_true hrstate⟩
  refine ⟨hallowed, fun r hr => ?_, fun c hc => ?_, fun c hc => ?_, fun c hc r hr hkey => ?_, ?_,
    fun c hc hunended r hr hkey => ?_, fun c hc r hr hkey => ?_⟩
  · rcases hrow hr with ⟨j, hj, hjkey, -⟩ | ⟨j, hj, now, rfl, -⟩ | hadd
    · exact List.mem_append_right _ (hjkey ▸ h.seen j hj)
    · exact List.mem_append_right _ (h.seen j hj)
    · exact List.mem_append_left _ (List.mem_map_of_mem hadd)
  · refine List.mem_append_right _ ?_
    rcases List.mem_append.mp hc with hc | hc
    · obtain ⟨k, hk, rfl⟩ := List.mem_map.mp hc
      obtain ⟨-, -, now, j, hj, rfl, -⟩ := hclaimed k hk
      exact h.seen j hj
    · exact h.claimed c hc
  · refine List.mem_append_right _ ?_
    rcases List.mem_append.mp hc with hc | hc
    · exact h.claimed c (hended hc).1
    · exact h.ended_seen c hc
  · rcases List.mem_append.mp hc with hc | hc
    · obtain ⟨k, hk, rfl⟩ := List.mem_map.mp hc
      obtain ⟨hmem, -, now, j, -, hset, -⟩ := hclaimed k hk
      obtain rfl := hallowed.eq_of_jobKey hr hmem hkey
      exact ⟨le_rfl, fun hnone => by simp [hset] at hnone⟩
    · rcases hrow hr with ⟨j, hj, hjkey, hcount, hstart, -⟩ | ⟨j, hj, now, rfl, -⟩ | hadd
      · rw [hcount, hstart]
        exact h.counted c hc j hj (hjkey.symm.trans hkey)
      · exact ⟨(h.claim_count now hj hc hkey).le, fun hnone => by simp at hnone⟩
      · exact absurd hadd (hold (h.claimed c hc) hkey)
  · refine List.pairwise_append.mpr ⟨?_, h.distinct, fun a ha b hb hkey => ?_⟩
    · exact List.pairwise_map.mpr (hpairwise.imp fun hne hkey => absurd hkey hne)
    · obtain ⟨k, hk, rfl⟩ := List.mem_map.mp ha
      obtain ⟨-, -, now, j, hj, rfl, -⟩ := hclaimed k hk
      exact (h.claim_count now hj hb hkey).ne'
  · rcases List.mem_append.mp hc with hc | hc
    · obtain ⟨k, hk, rfl⟩ := List.mem_map.mp hc
      obtain ⟨hmem, hactive, -⟩ := hclaimed k hk
      obtain rfl := hallowed.eq_of_jobKey hr hmem hkey
      exact ⟨hactive, rfl⟩
    · have hnot : c ∉ w.ended := fun hmem => hunended (List.mem_append_right _ hmem)
      rcases hrow hr with ⟨j, hj, hjkey, hcount, -, -⟩ | ⟨j, hj, now, rfl, hk⟩ | hadd
      · obtain ⟨hactive, hcountc⟩ := h.unended c hc hnot j hj (hjkey.symm.trans hkey)
        refine ⟨?_, hcount.trans hcountc⟩
        by_contra hstate
        refine hunended (List.mem_append_left _ (List.mem_filter.mpr ⟨hc, List.any_eq_true.mpr ⟨j, hj, ?_⟩⟩))
        have hclaim : j.claim = c := Prod.ext (hjkey.symm.trans hkey) hcountc
        simp only [hclaim, hactive, and_self, decide_true, Bool.true_and]
        exact List.any_eq_true.mpr ⟨r, hr, decide_eq_true ⟨hkey, hstate⟩⟩
      · obtain ⟨-, -, t, k, hkdb, hset, hwait⟩ := hclaimed _ hk
        have hkj : k.jobKey = j.jobKey := (congrArg Job.jobKey hset).symm
        have hactive := (h.unended c hc hnot k hkdb (hkj.trans hkey)).1
        simp [hactive] at hwait
      · exact absurd hadd (hold (h.claimed c hc) hkey)
  · rcases List.mem_append.mp hc with hc | hc
    · obtain ⟨hstanding, r', hr', hkey', hstate⟩ := hended hc
      obtain rfl := hallowed.eq_of_jobKey hr hr' (hkey.trans hkey'.symm)
      exact ⟨List.mem_append_right _ hstanding, fun hactive => absurd hactive hstate⟩
    · rcases hrow hr with ⟨j, hj, hjkey, hcount, -, hjactive⟩ | ⟨j, hj, now, rfl, -⟩ | hadd
      · obtain ⟨hstanding, hne⟩ := h.ended c hc j hj (hjkey.symm.trans hkey)
        exact ⟨List.mem_append_right _ hstanding, fun hactive => hcount ▸ hne (hjactive hactive)⟩
      · obtain ⟨hstanding, -⟩ := h.ended c hc j hj hkey
        exact ⟨List.mem_append_right _ hstanding, fun _ => (h.claim_count now hj hstanding hkey).ne'⟩
      · exact absurd hadd (hold (h.ended_seen c hc) hkey)

/-- The rows a give-back names are those of the claims it gives back. -/
theorem named_given {name : String} {given : List JobAttempt} {j : Job} :
    named name (given.map JobAttempt.id) j = true ↔ ∃ c ∈ givenClaims name given, j.jobKey = c.1 := by
  simp only [named, givenClaims, Bool.and_eq_true, decide_eq_true_eq, List.mem_map, Job.jobKey]
  constructor
  · rintro ⟨rfl, a, ha, hid⟩
    exact ⟨_, ⟨a, ha, rfl⟩, by rw [hid]⟩
  · rintro ⟨c, ⟨a, ha, rfl⟩, hkey⟩
    obtain ⟨hname, hid⟩ := Prod.mk.inj hkey
    exact ⟨hname, a, ha, hid.symm⟩

/-- A give-back of claims nothing has ended keeps it. -/
theorem ClaimWorld.Kept.giveBack (h : w.Kept) {name : String} {given : List JobAttempt} {ids : List Uuid}
    (hown : w.Own name given) (hunended : w.Unended name given)
    (hrun : restoreJobs name (given.map JobAttempt.id) w.db = .ok (db', ids)) : (w.giveBack name given db').Kept := by
  have hrow : ∀ r ∈ db'.jobs, (r ∈ w.db.jobs ∧ ∀ c ∈ givenClaims name given, r.jobKey ≠ c.1) ∨
      ∃ j ∈ w.db.jobs, r = restoreSet j ∧ j.claim ∈ givenClaims name given ∧ j.claim ∉ w.ended := by
    intro r hr
    rcases (Database.updateWhere_mem hrun).mp hr with ⟨hr, hnamed⟩ | ⟨j, hj, hnamed, rfl⟩
    · refine .inl ⟨hr, fun c hc hkey => ?_⟩
      simp [named_given.mpr ⟨c, hc, hkey⟩] at hnamed
    · obtain ⟨c, hc, hkey⟩ := named_given.mp hnamed
      have hnot := hunended c hc ⟨j, hj, hkey⟩
      have hclaim : j.claim = c := Prod.ext hkey (h.unended c (hown.1 c hc) hnot j hj hkey).2
      exact .inr ⟨j, hj, rfl, hclaim ▸ hc, hclaim ▸ hnot⟩
  have hkeep : ∀ {c : JobKey × ℕ}, c ∈ (w.giveBack name given db').standing →
      c ∈ w.standing ∧ c ∉ givenClaims name given := fun hc =>
    ⟨(List.mem_filter.mp hc).1, of_decide_eq_true (List.mem_filter.mp hc).2⟩
  refine ⟨Database.updateWhere_allowed restoreSet h.allowed (fun _ => ⟨rfl, rfl⟩) hrun, fun r hr => ?_,
    fun c hc => h.claimed c (hkeep hc).1, h.ended_seen, fun c hc r hr hkey => ?_, h.distinct.filter _,
    fun c hc hnot r hr hkey => ?_, fun c hc r hr hkey => ?_⟩
  · rcases hrow r hr with ⟨hr, -⟩ | ⟨j, hj, rfl, -⟩
    · exact h.seen r hr
    · exact h.seen j hj
  · obtain ⟨hstanding, hnotgiven⟩ := hkeep hc
    rcases hrow r hr with ⟨hr, -⟩ | ⟨j, hj, rfl, hgiven, -⟩
    · exact h.counted c hstanding r hr hkey
    · have hne : c.2 ≠ j.retryCount := fun heq => hnotgiven ((Prod.ext hkey heq.symm : j.claim = c) ▸ hgiven)
      have hle : c.2 ≤ j.retryCount := (h.counted c hstanding j hj hkey).1
      exact ⟨hle, fun _ => hle.lt_of_ne hne⟩
  · obtain ⟨hstanding, hnotgiven⟩ := hkeep hc
    rcases hrow r hr with ⟨hr, -⟩ | ⟨j, hj, rfl, hgiven, -⟩
    · exact h.unended c hstanding hnot r hr hkey
    · have hcount := (h.unended c hstanding hnot j hj hkey).2
      exact absurd ((Prod.ext hkey hcount : j.claim = c) ▸ hgiven) hnotgiven
  · rcases hrow r hr with ⟨hr, hnotgiven⟩ | ⟨j, hj, rfl, hgiven, hopen⟩
    · obtain ⟨hstanding, hactive⟩ := h.ended c hc r hr hkey
      exact ⟨List.mem_filter.mpr ⟨hstanding, decide_eq_true fun hmem => hnotgiven c hmem hkey⟩, hactive⟩
    · obtain ⟨hstanding, -⟩ := h.ended c hc j hj hkey
      refine ⟨List.mem_filter.mpr ⟨hstanding, decide_eq_true fun hmem => ?_⟩, fun hactive => nomatch hactive⟩
      exact hunended c hmem ⟨j, hj, hkey⟩ hc

end Steps

section Manager

theorem ClaimWorld.Own.tail {name : String} {a : JobAttempt} {rest : List JobAttempt}
    (h : w.Own name (a :: rest)) : w.Own name rest :=
  ⟨fun c hc => h.1 c (List.mem_cons_of_mem _ hc), (List.nodup_cons.mp h.2).2⟩

theorem ClaimWorld.Unended.tail {name : String} {a : JobAttempt} {rest : List JobAttempt}
    (h : w.Unended name (a :: rest)) : w.Unended name rest := fun c hc => h c (List.mem_cons_of_mem _ hc)

/-- The per-id tries of `#giveBack` are give-backs, one for each id that is not refused. -/
theorem giveBackEach_run (name : String) (given : List JobAttempt) (w : ClaimWorld) (hown : w.Own name given)
    (hunended : w.Unended name given) : ∃ w', ReflTransGen ClaimWorld.Step w w' ∧
      w'.db = (giveBackEach name (given.map JobAttempt.id) w.db).1 := by
  induction given generalizing w with
  | nil => exact ⟨w, .refl, rfl⟩
  | cons a rest ih =>
    cases hrun : restoreJobs name [a.id] w.db with
    | error e =>
      obtain ⟨w', hw', hdb⟩ := ih w hown.tail hunended.tail
      exact ⟨w', hw', by simpa [giveBackEach, hrun] using hdb⟩
    | ok out =>
      obtain ⟨db', ids⟩ := out
      have hfirst : ∀ {c : JobKey × ℕ}, c ∈ givenClaims name [a] → c ∈ givenClaims name (a :: rest) := fun hc => by
        rw [List.mem_singleton.mp hc]
        exact List.mem_cons_self
      have hstep : ClaimWorld.Step w (w.giveBack name [a] db') :=
        .giveBack name [a] db' ids ⟨fun c hc => hown.1 c (hfirst hc), List.nodup_singleton _⟩
          (fun c hc => hunended c (hfirst hc)) hrun
      have hnext : (w.giveBack name [a] db').Own name rest := by
        refine ⟨fun c hc => List.mem_filter.mpr ⟨hown.1 c (List.mem_cons_of_mem _ hc), decide_eq_true fun h => ?_⟩,
          hown.tail.2⟩
        obtain ⟨b, hb, hbc⟩ := List.mem_map.mp hc
        have hid : b.id = a.id := congrArg (·.1.2) (hbc.trans (List.mem_singleton.mp h))
        exact (List.nodup_cons.mp hown.2).1 (hid ▸ List.mem_map_of_mem hb)
      have hopen : (w.giveBack name [a] db').Unended name rest := by
        rintro c hc ⟨r, hr, hkey⟩
        refine hunended.tail c hc ?_
        rcases (Database.updateWhere_mem hrun).mp hr with ⟨hr, -⟩ | ⟨j, hj, -, rfl⟩
        · exact ⟨r, hr, hkey⟩
        · exact ⟨j, hj, hkey⟩
      obtain ⟨w', hw', hdb⟩ := ih _ hnext hopen
      exact ⟨w', .head hstep hw', by rw [hdb]; simp [giveBackEach, hrun, ClaimWorld.giveBack]⟩

/-- `#giveBack` on a batch's own claims, nothing having ended one, is a run. -/
theorem giveBack_run (name : String) (given : List JobAttempt) (w : ClaimWorld) (hown : w.Own name given)
    (hunended : w.Unended name given) : ∃ w', ReflTransGen ClaimWorld.Step w w' ∧
      w'.db = (giveBack name (given.map JobAttempt.id) w.db).1 := by
  cases hrun : restoreJobs name (given.map JobAttempt.id) w.db with
  | ok out =>
    exact ⟨_, .single (.giveBack name given out.1 out.2 hown hunended hrun), by simp [giveBack, hrun,
      ClaimWorld.giveBack]⟩
  | error e =>
    by_cases hone : (given.map JobAttempt.id).length = 1
    · exact ⟨w, .refl, by simp [giveBack, hrun, hone]⟩
    · obtain ⟨w', hw', hdb⟩ := giveBackEach_run name given w hown hunended
      exact ⟨w', hw', by rw [hdb, giveBack, hrun]; simp only [hone, if_false]⟩

end Manager

/-- In every run whose give-backs are of claims nothing has ended, no claim that stands is repeated,
a give-back of a batch's own claims names only jobs active under them exactly when nothing has
ended one of them, and it then leaves every other job as it is. -/
theorem give_back_own (hstart : w₀.Start) (hrun : ReflTransGen ClaimWorld.Step w₀ w) :
    (w.standing.Pairwise fun a b => a.1 = b.1 → a.2 ≠ b.2) ∧
      ∀ (name : String) (given : List JobAttempt), w.Own name given →
        ((∀ j ∈ w.db.jobs, named name (given.map JobAttempt.id) j = true → w.ActiveUnder name given j) ↔
          w.Unended name given) ∧
        (w.Unended name given → ∀ db' ids, restoreJobs name (given.map JobAttempt.id) w.db = .ok (db', ids) →
          ∀ j ∈ w.db.jobs, ¬ w.ActiveUnder name given j → j ∈ db'.jobs) := by
  have hkept : w.Kept := by
    induction hrun with
    | refl => exact hstart.kept
    | tail _ hlast ih =>
      cases hlast with
      | exec s db' hrestore hfresh hexec => exact ih.exec hrestore hfresh hexec
      | giveBack name given db' ids hown hunended hexec => exact ih.giveBack hown hunended hexec
  refine ⟨hkept.distinct, fun name given hown => ?_⟩
  have hactive : w.Unended name given → ∀ j ∈ w.db.jobs, named name (given.map JobAttempt.id) j = true →
      w.ActiveUnder name given j := by
    intro hunended j hj hnamed
    obtain ⟨c, hc, hkey⟩ := named_given.mp hnamed
    obtain ⟨hstate, hcount⟩ := hkept.unended c (hown.1 c hc) (hunended c hc ⟨j, hj, hkey⟩) j hj hkey
    exact ⟨hstate, (Prod.ext hkey hcount : j.claim = c) ▸ hc, fun d hd hdkey =>
      (hkept.counted d hd j hj hdkey.symm).1⟩
  refine ⟨⟨fun honly c hc hpresent hended => ?_, hactive⟩, fun hunended db' ids hexec j hj hnot => ?_⟩
  · obtain ⟨j, hj, hkey⟩ := hpresent
    obtain ⟨hstate, hgiven, hlatest⟩ := honly j hj (named_given.mpr ⟨c, hc, hkey⟩)
    obtain ⟨a, ha, hac⟩ := List.mem_map.mp hc
    obtain ⟨b, hb, hbj⟩ := List.mem_map.mp hgiven
    have hid : b.id = a.id := by
      have hclaim : (name, b.id) = (name, a.id) := (congrArg Prod.fst hbj).trans (hkey.trans (congrArg Prod.fst hac).symm)
      exact (Prod.mk.inj hclaim).2
    obtain rfl := List.inj_on_of_nodup_map hown.2 hb ha hid
    exact (hkept.ended c hended j hj hkey).2 hstate (congrArg Prod.snd (hbj.symm.trans hac))
  · refine (Database.updateWhere_mem hexec).mpr (.inl ⟨hj, ?_⟩)
    by_contra hnamed
    exact hnot (hactive hunended j hj (by simpa using hnamed))

section Resurrected

/-- A job of a group. -/
def groupedJob (id : Uuid) : Job where
  id := id
  name := "q"
  groupId := some "g"
  startAfter := 0
  createdOn := 0
  keepUntil := 0

/-- Two jobs of one group. -/
def groupedJobs : ClaimWorld where
  db := { jobs := [groupedJob 1, groupedJob 2] }
  seen := [("q", 1), ("q", 2)]

/-- A worker fetches both. -/
def fetchBoth : Statement := .fetchNextJob 1 (fun _ => 0) [] { name := "q", policy := .standard, limit := 2 }

/-- A second worker claims what can be claimed. -/
def fetchAgain : Statement := .fetchNextJob 5 (fun _ => 0) [] { name := "q", policy := .standard, limit := 2 }

/-- The tables after some statements, the ones that raise passed over. -/
def tablesAfter (db : Database) : List Statement → Database
  | [] => db
  | s :: rest => tablesAfter ((s.exec db).toOption.getD db) rest

/-- A worker claims two jobs of a group and is to give the second back. Meanwhile a user cancels it,
or a call fails it and another worker claims it: the restore makes it `created` all the same,
and the claim after that repeats the other worker's pair. -/
theorem restore_resurrects :
    (∃ db' ids, restoreJobs "q" [2] (tablesAfter groupedJobs.db [fetchBoth, .cancelJobs 2 "q" [2] none]) =
        .ok (db', ids) ∧
      (∃ j ∈ (tablesAfter groupedJobs.db [fetchBoth, .cancelJobs 2 "q" [2] none]).jobs,
        j.id = 2 ∧ j.state = .cancelled) ∧
      ∃ r ∈ db'.jobs, r.id = 2 ∧ r.state = .created) ∧
    ∃ db' ids, restoreJobs "q" [2] (tablesAfter groupedJobs.db [fetchBoth,
        .failJobs ⟨4, fun _ => 0, fun _ => 9, fun _ => none, false⟩ (.fail "q" [2] none), fetchAgain]) =
        .ok (db', ids) ∧
      (∃ j ∈ (tablesAfter groupedJobs.db [fetchBoth,
        .failJobs ⟨4, fun _ => 0, fun _ => 9, fun _ => none, false⟩ (.fail "q" [2] none), fetchAgain]).jobs,
        j.id = 2 ∧ j.state = .active ∧ j.retryCount = 1) ∧
      ∃ r ∈ (tablesAfter db' [fetchAgain]).jobs, r.id = 2 ∧ r.state = .active ∧ r.retryCount = 1 := by
  exact ⟨⟨_, _, rfl, by decide, by decide⟩, _, _, rfl, by decide, by decide⟩

/-- The theorem where a worker gives the second job back at once: nothing but its own claim is undone. -/
theorem give_back_own_grouped :
    ∃ w : ClaimWorld, w.standing = [(("q", 1), 0), (("q", 2), 0)] ∧
      (∀ db' ids, restoreJobs "q" [2] w.db = .ok (db', ids) →
        ∀ j ∈ w.db.jobs, ¬ w.ActiveUnder "q" [⟨2, 0⟩] j → j ∈ db'.jobs) := by
  have hstart : groupedJobs.Start := ⟨⟨by decide, by decide⟩, rfl, rfl, by decide⟩
  have hstep : ClaimWorld.Step groupedJobs _ := .exec fetchBoth _ rfl (by decide) rfl
  refine ⟨_, by decide, ((give_back_own hstart (.single hstep)).2 "q" [⟨2, 0⟩] ⟨by decide, by decide⟩).2 ?_⟩
  intro c hc _
  simp [ClaimWorld.next, ClaimWorld.endedBy, groupedJobs]

end Resurrected

end PgBoss
