import PgBoss.Manager.Fetch

/-!
# Local group slots

`#localGroupActive` counts the slots of each group of a queue, a group without an entry counting zero. A batch
takes a slot for each job whose group is below the job's limit, job after job, and gives its slots back together.
-/

namespace PgBoss

/-- `job.groupId`, where it is truthy. -/
def Job.group (job : Job) : Option String := job.groupId.filter fun group => decide (group ≠ "")

/-- What `#getLocalGroupLimit` returns. -/
inductive LocalGroupLimit
  | infinity
  | finite (limit : Int)
  /-- A property the tiers inherit, which compares with no number. -/
  | inherited
  deriving DecidableEq, Repr

/-- `currentCount < limit`. -/
def LocalGroupLimit.above (currentCount : ℕ) : LocalGroupLimit → Bool
  | .infinity => true
  | .finite limit => decide ((currentCount : Int) < limit)
  | .inherited => false

/-- `#getLocalGroupLimit`. -/
def getLocalGroupLimit (config : Option GroupConcurrency) (groupTier : Option String) : LocalGroupLimit :=
  match config with
  | none => .infinity
  | some config =>
    match groupTier.filter fun tier => decide (tier ≠ ""), config.tiers with
    | some tier, some tiers =>
      match tiers.find? fun entry => entry.1 = tier with
      | some entry => .finite entry.2
      | none => if tier ∈ objectPrototype then .inherited else .finite config.default
    | _, _ => .finite config.default

/-- What `#storeLocalGroupConfig` keeps in `#localGroupMaxLimit`. -/
def GroupConcurrency.maxLimit (config : GroupConcurrency) : Int :=
  ((config.tiers.getD []).map Prod.snd).foldr max config.default

/-- `#getGroupsAtLocalCapacity`, by its members. -/
def getGroupsAtLocalCapacity (config : Option GroupConcurrency) (active : String → ℕ) (group : String) : Bool :=
  match config with
  | none => false
  | some config => decide (active group ≠ 0) && decide (config.maxLimit ≤ active group)

/-- `#incrementLocalGroupCount`. -/
def incrementLocalGroupCount (active : String → ℕ) (group : String) : String → ℕ :=
  Function.update active group (active group + 1)

/-- `#decrementLocalGroupCount`, where a count of one or less loses its entry. -/
def decrementLocalGroupCount (active : String → ℕ) (group : String) : String → ℕ :=
  Function.update active group (if active group ≤ 1 then 0 else active group - 1)

/-- What `#trackLocalGroupStart` leaves and returns. -/
structure LocalGroupStart where
  active : String → ℕ
  allowed : List Job := []
  excess : List Job := []
  groupedJobs : List Job := []

/-- `#trackLocalGroupStart`. -/
def trackLocalGroupStart (config : Option GroupConcurrency) : (String → ℕ) → List Job → LocalGroupStart
  | active, [] => { active }
  | active, job :: jobs =>
    match job.group with
    | none =>
      let rest := trackLocalGroupStart config active jobs
      { rest with allowed := job :: rest.allowed }
    | some group =>
      if (getLocalGroupLimit config job.groupTier).above (active group) then
        let rest := trackLocalGroupStart config (incrementLocalGroupCount active group) jobs
        { rest with allowed := job :: rest.allowed, groupedJobs := job :: rest.groupedJobs }
      else
        let rest := trackLocalGroupStart config active jobs
        { rest with excess := job :: rest.excess }

/-- `#trackLocalGroupEnd`. -/
def trackLocalGroupEnd : (String → ℕ) → List Job → String → ℕ
  | active, [] => active
  | active, job :: jobs =>
    match job.group with
    | none => trackLocalGroupEnd active jobs
    | some group => trackLocalGroupEnd (decrementLocalGroupCount active group) jobs

/-- The jobs of a group in a batch. -/
def groupCount (group : String) (jobs : List Job) : ℕ := jobs.countP fun job => decide (job.group = some group)

section Counts

variable {config : Option GroupConcurrency} {active : String → ℕ} {group : String} {job : Job} {jobs : List Job}

@[simp] theorem groupCount_nil : groupCount group [] = 0 := rfl

theorem groupCount_cons : groupCount group (job :: jobs) = groupCount group jobs + if job.group = some group then 1 else 0 := by
  simp [groupCount, List.countP_cons]

theorem incrementLocalGroupCount_apply (other : String) :
    incrementLocalGroupCount active group other = active other + if group = other then 1 else 0 := by
  rcases eq_or_ne other group with rfl | hne
  · simp [incrementLocalGroupCount]
  · simp [incrementLocalGroupCount, hne, hne.symm]

theorem decrementLocalGroupCount_apply (other : String) :
    decrementLocalGroupCount active group other = active other - if group = other then 1 else 0 := by
  rcases eq_or_ne other group with rfl | hne
  · simp only [decrementLocalGroupCount, Function.update_self, if_true]
    split <;> omega
  · simp [decrementLocalGroupCount, hne, hne.symm]

/-- A batch's start counts its grouped jobs. -/
theorem trackLocalGroupStart_active (group : String) :
    (trackLocalGroupStart config active jobs).active group =
      active group + groupCount group (trackLocalGroupStart config active jobs).groupedJobs := by
  induction jobs generalizing active with
  | nil => rfl
  | cons job jobs ih =>
    simp only [trackLocalGroupStart]
    split
    next => exact ih
    next other hgroup =>
      split
      next =>
        simp only [ih, groupCount_cons, incrementLocalGroupCount_apply, hgroup, Option.some.injEq]
        omega
      next => exact ih

/-- A batch's end gives as many back. -/
theorem trackLocalGroupEnd_apply (group : String) :
    trackLocalGroupEnd active jobs group = active group - groupCount group jobs := by
  induction jobs generalizing active with
  | nil => rfl
  | cons job jobs ih =>
    cases hgroup : job.group with
    | none => simp [trackLocalGroupEnd, ih, groupCount_cons, hgroup]
    | some other =>
      simp only [trackLocalGroupEnd, ih, groupCount_cons, decrementLocalGroupCount_apply, hgroup, Option.some.injEq]
      omega

/-- A fetched job is allowed or excess. -/
theorem mem_trackLocalGroupStart (hjob : job ∈ jobs) :
    job ∈ (trackLocalGroupStart config active jobs).allowed ∨ job ∈ (trackLocalGroupStart config active jobs).excess := by
  induction jobs generalizing active with
  | nil => cases hjob
  | cons head jobs ih =>
    simp only [trackLocalGroupStart]
    split
    next =>
      rcases List.mem_cons.mp hjob with rfl | hmem
      · simp
      · exact (ih hmem).imp_left (List.mem_cons_of_mem _)
    next =>
      split
      next =>
        rcases List.mem_cons.mp hjob with rfl | hmem
        · simp
        · exact (ih hmem).imp_left (List.mem_cons_of_mem _)
      next =>
        rcases List.mem_cons.mp hjob with rfl | hmem
        · simp
        · exact (ih hmem).imp_right (List.mem_cons_of_mem _)

/-- A batch holds a slot for each allowed job that has a group. -/
theorem groupCount_allowed (group : String) :
    groupCount group (trackLocalGroupStart config active jobs).allowed =
      groupCount group (trackLocalGroupStart config active jobs).groupedJobs := by
  induction jobs generalizing active with
  | nil => rfl
  | cons job jobs ih =>
    simp only [trackLocalGroupStart]
    split
    next hgroup => simp [groupCount_cons, hgroup, ih]
    next other hgroup =>
      split
      next => simp [groupCount_cons, ih]
      next => exact ih

/-- A job that takes a slot finds its group below its own limit, with the slots its batch took before it counted. -/
theorem limit_above_of_split {pre post : List Job} (hgroup : job.group = some group)
    (hsplit : (trackLocalGroupStart config active jobs).groupedJobs = pre ++ job :: post) :
    (getLocalGroupLimit config job.groupTier).above (active group + groupCount group pre) = true := by
  induction jobs generalizing active pre with
  | nil => simp [trackLocalGroupStart] at hsplit
  | cons head jobs ih =>
    simp only [trackLocalGroupStart] at hsplit
    split at hsplit
    next => exact ih hsplit
    next other hother =>
      split at hsplit
      next habove =>
        cases pre with
        | nil =>
          obtain ⟨rfl, -⟩ := List.cons.inj hsplit
          obtain rfl : other = group := Option.some.inj (hother.symm.trans hgroup)
          simpa using habove
        | cons first pre =>
          obtain ⟨rfl, hrest⟩ := List.cons.inj hsplit
          have hbelow := ih hrest
          rw [incrementLocalGroupCount_apply] at hbelow
          simp only [groupCount_cons, hother, Option.some.injEq]
          convert hbelow using 2
          omega
      next => exact ih hsplit

/-- A configured queue has a limit for every tier. -/
theorem getLocalGroupLimit_ne_infinity {config : GroupConcurrency} {tier : Option String} :
    getLocalGroupLimit (some config) tier ≠ .infinity := by
  simp only [getLocalGroupLimit]
  split
  next => split <;> [simp; (split <;> simp)]
  next => simp

/-- Every configured limit is within the greatest. -/
theorem le_maxLimit {config : GroupConcurrency} {tier : Option String} {limit : Int}
    (h : getLocalGroupLimit (some config) tier = .finite limit) : limit ≤ config.maxLimit := by
  have hdefault : ∀ limits : List Int, config.default ≤ limits.foldr max config.default := by
    intro limits
    induction limits with
    | nil => exact le_rfl
    | cons limit limits ih => exact ih.trans (le_max_right _ _)
  have htier : ∀ limits : List Int, limit ∈ limits → limit ≤ limits.foldr max config.default := by
    intro limits hmem
    induction limits with
    | nil => cases hmem
    | cons first limits ih =>
      rcases List.mem_cons.mp hmem with rfl | hmem
      · exact le_max_left _ _
      · exact (ih hmem).trans (le_max_right _ _)
  simp only [getLocalGroupLimit] at h
  split at h
  next tier tiers _ htiers =>
    split at h
    next entry hfind =>
      cases h
      refine htier _ ?_
      rw [htiers]
      exact List.mem_map_of_mem (List.mem_of_find?_eq_some hfind)
    next =>
      split at h
      · cases h
      · cases h
        exact hdefault _
  next =>
    cases h
    exact hdefault _

/-- A batch's start keeps every group within the greatest limit. -/
theorem trackLocalGroupStart_le {config : GroupConcurrency} (hle : (active group : Int) ≤ config.maxLimit) :
    ((trackLocalGroupStart (some config) active jobs).active group : Int) ≤ config.maxLimit := by
  induction jobs generalizing active with
  | nil => exact hle
  | cons job jobs ih =>
    simp only [trackLocalGroupStart]
    split
    next => exact ih hle
    next other _ =>
      split
      next habove =>
        refine ih ?_
        rw [incrementLocalGroupCount_apply]
        split
        next heq =>
          subst heq
          cases hlimit : getLocalGroupLimit (some config) job.groupTier with
          | infinity => exact absurd hlimit getLocalGroupLimit_ne_infinity
          | finite limit =>
            have hmax := le_maxLimit hlimit
            rw [hlimit] at habove
            simp only [LocalGroupLimit.above, decide_eq_true_eq] at habove
            omega
          | inherited => simp [hlimit, LocalGroupLimit.above] at habove
        next => simpa using hle
      next => exact ih hle

end Counts

end PgBoss
