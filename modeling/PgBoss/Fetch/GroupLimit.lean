import PgBoss.Lifecycle.Queues
import PgBoss.Manager.Fetch

/-!
# Group limits across racing fetches

The claiming statement cannot see the claims other fetches have not committed, so a limit holds
only because every fetch counts its groups again after its claim and gives back what exceeds.
Any number of fetches of one queue under one configuration run here, each at its own one of the
three steps, with every other statement in between. `owner` is the fetch under whose claim a
job is active, which no table holds: it is forgotten with the statement that ends the claim.

The recount loop takes one off a group's count for each row it gives back. Where a statement has
ended the claim of such a row before the count was read, the count did not include it, and the
loop keeps a job too many.
-/

namespace PgBoss

open Relational Relation

/-- What a fetch decided at its recount: which recount of the run it was, the batch, the ids to
give back, and the tables it counted. -/
structure Recount where
  turn : ℕ
  rows : List Job
  excess : List Uuid
  tables : Database

/-- Where a fetch stands. -/
inductive FetchPhase
  | claimed (rows : List Job)
  | recounted (c : Recount)
  | returned (c : Recount) (rows : List Job)

namespace FetchPhase

/-- The batch as it was claimed. -/
def batch : FetchPhase → List Job
  | claimed rows => rows
  | recounted c => c.rows
  | returned c _ => c.rows

/-- The recount behind a phase. -/
def recount? : FetchPhase → Option Recount
  | claimed _ => none
  | recounted c => some c
  | returned c _ => some c

/-- The recount that kept the job, if one did. -/
def keptAt (id : Uuid) : FetchPhase → Option ℕ
  | claimed _ => none
  | recounted c => if id ∈ c.excess then none else some c.turn
  | returned c _ => some c.turn

/-- The fetch returned the job. -/
def delivers (id : Uuid) : FetchPhase → Bool
  | returned _ rows => decide (id ∈ rows.map Job.id)
  | _ => false

theorem keptAt_recounted {c : Recount} {id : Uuid} {n : ℕ} :
    (recounted c).keptAt id = some n ↔ id ∉ c.excess ∧ c.turn = n := by
  by_cases h : id ∈ c.excess <;> simp [keptAt, h]

theorem keptAt_turn {phase : FetchPhase} {id : Uuid} {n : ℕ} (h : phase.keptAt id = some n) :
    ∃ c, phase.recount? = some c ∧ c.turn = n := by
  cases phase with
  | claimed => exact nomatch h
  | recounted c => exact ⟨c, rfl, (keptAt_recounted.mp h).2⟩
  | returned c => exact ⟨c, rfl, Option.some.inj h⟩

end FetchPhase

/-- The jobs of a group that are active where the fetch counted and that it does not give back. -/
def Recount.remaining (c : Recount) (name group : String) : List Job :=
  c.tables.jobs.filter fun j =>
    decide (j.name = name ∧ j.state = .active ∧ j.groupId = some group) && !decide (j.id ∈ c.excess)

/-- The tables, where each fetch stands, whose claim each job is active under, and the number
of recounts so far. -/
structure GroupWorld where
  db : Database
  fetches : ℕ → Option FetchPhase := fun _ => none
  owner : JobKey → Option ℕ := fun _ => none
  turn : ℕ := 0

/-- A job of that name and id is active. -/
def Database.runs (db : Database) (key : JobKey) : Bool :=
  db.jobs.any fun j => decide (j.jobKey = key ∧ j.state = .active)

namespace GroupWorld

/-- The world with other tables: a job that is no longer active is active under no claim. -/
def settle (w : GroupWorld) (db' : Database) : GroupWorld :=
  { w with db := db', owner := fun key => if db'.runs key then w.owner key else none }

/-- The world after the claim of a fetch. -/
def claim (w : GroupWorld) (f : ℕ) (rows : List Job) (db' : Database) : GroupWorld where
  db := db'
  fetches := Function.update w.fetches f (some (.claimed rows))
  owner key := if key ∈ rows.map Job.jobKey then some f else w.owner key
  turn := w.turn

/-- The recount of a fetch that claimed `rows`. -/
def recountOf (w : GroupWorld) (o : FetchOptions) (rows : List Job) : Recount where
  turn := w.turn
  rows := rows
  excess := recount o rows w.db
  tables := w.db

/-- The world after it. -/
def recounted (w : GroupWorld) (f : ℕ) (c : Recount) : GroupWorld :=
  { w with fetches := Function.update w.fetches f (some (.recounted c)), turn := w.turn + 1 }

/-- The world where a fetch has returned. -/
def returned (w : GroupWorld) (f : ℕ) (c : Recount) (rows : List Job) : GroupWorld :=
  { w with fetches := Function.update w.fetches f (some (.returned c rows)) }

/-- The world after the fetch has given back and returned. -/
def returns (w : GroupWorld) (name : String) (f : ℕ) (c : Recount) : GroupWorld :=
  (w.settle (fetchReturn name c.rows c.excess w.db).1).returned f c (fetchReturn name c.rows c.excess w.db).2

/-- One step: the claim of a new fetch, whose statement chose from some earlier tables; its
recount; its give-back, which no index refuses; or a statement that claims nothing of the queue. -/
inductive Step (name : String) (g : GroupConcurrency) (may : GroupWorld → ℕ → List Job → Prop) (w : GroupWorld) :
    GroupWorld → Prop
  | claim (f : ℕ) (now : Timestamp) (rank : Job → ℕ) (locked : List JobKey) (o : FetchOptions)
    (snapshot db' : Database) (claimed rows : List Job) (hnew : w.fetches f = none) (hname : o.name = name)
    (hgroups : o.groupConcurrency = some g)
    (hrun : fetchNextJobSince now rank locked o snapshot w.db = .ok (db', claimed)) (hrows : rows.Perm claimed) :
    Step name g may w (w.claim f rows db')
  | recount (f : ℕ) (o : FetchOptions) (rows : List Job) (hname : o.name = name)
    (hgroups : o.groupConcurrency = some g) (hphase : w.fetches f = some (.claimed rows)) (hmay : may w f rows) :
    Step name g may w (w.recounted f (w.recountOf o rows))
  | giveBack (f : ℕ) (c : Recount) (hphase : w.fetches f = some (.recounted c))
    (hfree : ∀ id ∈ c.excess, id ∈ (PgBoss.giveBack name c.excess w.db).2) :
    Step name g may w (w.returns name f c)
  | exec (s : Statement) (db' : Database) (hclaims : ∀ r ∈ s.claimed w.db, r.name ≠ name)
    (hrun : s.exec w.db = .ok db') : Step name g may w (w.settle db')

/-- Any number of steps. -/
abbrev Run (name : String) (g : GroupConcurrency) (may : GroupWorld → ℕ → List Job → Prop) :
    GroupWorld → GroupWorld → Prop := ReflTransGen (Step name g may)

/-- A world no fetch has run in. -/
structure Start (w : GroupWorld) : Prop where
  allowed : w.db.Allowed
  fetches : ∀ f, w.fetches f = none
  owner : ∀ key, w.owner key = none

/-- The job is active under the claim of a fetch that returned it. -/
def delivered (w : GroupWorld) (j : Job) : Bool :=
  (w.owner j.jobKey).any fun f => (w.fetches f).any (FetchPhase.delivers j.id)

/-- The jobs of a group of the queue that are active and were delivered. -/
def deliveredOf (w : GroupWorld) (name group : String) : List Job :=
  w.db.jobs.filter fun j => decide (j.name = name ∧ j.state = .active ∧ j.groupId = some group) && w.delivered j

/-- The limits hold: the delivered jobs of a group are no more than the limit of some of them, and
when a fetch that returned a job had counted, the jobs of the group it left active were within
the limit of the job's tier. -/
structure WithinLimits (w : GroupWorld) (name : String) (g : GroupConcurrency) : Prop where
  delivered : ∀ group, w.deliveredOf name group ≠ [] →
    ∃ j ∈ w.deliveredOf name group, ((w.deliveredOf name group).length : Int) ≤ g.limitFor j.groupTier
  counted : ∀ f c rows, w.fetches f = some (.returned c rows) → ∀ r ∈ rows, ∀ group, r.groupId = some group →
    ((c.remaining name group).length : Int) ≤ g.limitFor r.groupTier

/-- The recount reads the rows of the batch as the claiming statement did: no group is named by
the empty string, each tier has the limit the statement gave it, and a job whose claim was
ended is of a group that is within its limit. -/
structure CountsRight (name : String) (g : GroupConcurrency) (w : GroupWorld) (f : ℕ) (rows : List Job) : Prop where
  tiers : ∀ r ∈ rows, ∀ group, r.groupId = some group →
    group ≠ "" ∧ tierLimit g r.groupTier = some (g.limitFor r.groupTier)
  held : ∀ r ∈ rows, ∀ group, r.groupId = some group → w.owner r.jobKey = some f ∨
    (activeInGroup name group w.db : Int) ≤ g.limitFor r.groupTier

end GroupWorld

section Excess

variable {g : GroupConcurrency} {db : Database} {name group : String} {groups : List String}
  {active : Option String → Int} {rows : List Job} {r : Job} {id : Uuid}

/-- The count read for a group of the batch. -/
theorem countOf_active (hgroup : group ∈ groups) :
    countOf (getActiveGroupCounts name groups db) (some group) = activeInGroup name group db := by
  have hentry : ∀ entry ∈ getActiveGroupCounts name groups db, entry.2 = activeInGroup name entry.1 db ∧ entry.2 ≠ 0 := by
    intro entry hentry
    obtain ⟨k, -, hk⟩ := List.mem_filterMap.mp hentry
    split at hk
    · contradiction
    · rename_i hcount
      obtain rfl := Option.some.inj hk
      exact ⟨rfl, hcount⟩
  simp only [countOf, Option.bind_some]
  cases hfind : (getActiveGroupCounts name groups db).find? fun entry => entry.1 = group with
  | some entry =>
    obtain rfl : entry.1 = group := by simpa using List.find?_some hfind
    exact (hentry entry (List.mem_of_find?_eq_some hfind)).1
  | none =>
    by_contra hne
    have hcount : activeInGroup name group db ≠ 0 := fun h => hne h.symm
    refine absurd rfl (decide_eq_true_iff.not.mp (List.find?_eq_none.mp hfind (group, activeInGroup name group db) ?_))
    exact List.mem_filterMap.mpr ⟨group, List.mem_dedup.mpr hgroup, by simp [hcount]⟩

theorem excessIds_subset (h : id ∈ excessIds g active rows) : id ∈ rows.map Job.id := by
  induction rows generalizing active with
  | nil => exact h
  | cons row rest ih =>
    rw [excessIds] at h
    split at h
    · rcases List.mem_cons.mp h with rfl | h
      · exact List.mem_cons_self
      · exact List.mem_cons_of_mem _ (ih h)
    · exact List.mem_cons_of_mem _ (ih h)

theorem exceeds_mono {tier : Option String} {m n : Int} (hle : m ≤ n) (h : exceeds g tier m = true) :
    exceeds g tier n = true := by
  simp only [exceeds] at h ⊢
  cases hlimit : tierLimit g tier with
  | none => simp [hlimit] at h
  | some limit =>
    simp only [hlimit, Option.any_some, decide_eq_true_eq] at h ⊢
    omega

/-- A row is given back only if its group counted over its limit to begin with. -/
theorem excessIds_exceeds (h : id ∈ excessIds g active rows) :
    ∃ r ∈ rows, r.id = id ∧ exceeds g r.groupTier (active r.groupId) = true := by
  induction rows generalizing active with
  | nil => exact nomatch h
  | cons row rest ih =>
    rw [excessIds] at h
    split at h
    · rename_i hrow
      rcases List.mem_cons.mp h with rfl | h
      · exact ⟨row, List.mem_cons_self, rfl, hrow⟩
      · obtain ⟨r, hr, hid, hexceeds⟩ := ih h
        refine ⟨r, List.mem_cons_of_mem _ hr, hid, exceeds_mono ?_ hexceeds⟩
        by_cases hgroup : r.groupId = row.groupId
        · simp [hgroup]
        · simp [Function.update_of_ne hgroup]
    · obtain ⟨r, hr, hid, hexceeds⟩ := ih h
      exact ⟨r, List.mem_cons_of_mem _ hr, hid, hexceeds⟩

/-- The rows of a group the loop gives back. -/
def givenOf (ids : List Uuid) (group : Option String) (rows : List Job) : List Job :=
  rows.filter fun k => decide (k.groupId = group ∧ k.id ∈ ids)

/-- Where the loop keeps a row, the count less the rows given back is within its limit. -/
theorem excessIds_within (hids : (rows.map Job.id).Nodup) (hr : r ∈ rows) (hkept : r.id ∉ excessIds g active rows)
    {limit : Int} (hlimit : tierLimit g r.groupTier = some limit) :
    active r.groupId - (givenOf (excessIds g active rows) r.groupId rows).length ≤ limit := by
  induction rows generalizing active with
  | nil => exact nomatch hr
  | cons row rest ih =>
    obtain ⟨hrow, hrest⟩ := List.nodup_cons.mp hids
    have htail : ∀ ids : List Uuid, givenOf (row.id :: ids) r.groupId rest = givenOf ids r.groupId rest := by
      intro ids
      refine List.filter_congr fun k hk => ?_
      have hne : k.id ≠ row.id := fun h => hrow (h ▸ List.mem_map_of_mem hk)
      simp [hne]
    by_cases hexceeds : exceeds g row.groupTier (active row.groupId) = true
    · rw [excessIds, if_pos hexceeds] at hkept ⊢
      have hne : r ≠ row := fun h => hkept (h ▸ List.mem_cons_self)
      have hin := (List.mem_cons.mp hr).resolve_left hne
      have hbound := ih hrest hin (fun h => hkept (List.mem_cons_of_mem _ h))
      rw [givenOf, List.filter_cons, ← givenOf, htail]
      by_cases hgroup : r.groupId = row.groupId
      · rw [hgroup, Function.update_self] at hbound
        simp only [hgroup, List.mem_cons, true_or, and_self, decide_true, if_true, List.length_cons] at hbound ⊢
        push_cast
        omega
      · rw [Function.update_of_ne hgroup] at hbound
        simpa [Ne.symm hgroup] using hbound
    · rw [excessIds, if_neg hexceeds] at hkept ⊢
      have hout : row.id ∉ excessIds g active rest := fun h => hrow (excessIds_subset h)
      rw [givenOf, List.filter_cons, ← givenOf]
      simp only [hout, and_false, decide_false, Bool.false_eq_true, if_false]
      rcases List.mem_cons.mp hr with rfl | hin
      · simp only [exceeds, hlimit, Option.any_some, decide_eq_true_eq, not_lt] at hexceeds
        omega
      · exact ih hrest hin hkept

end Excess

section Counted

variable {name group : String} {g : GroupConcurrency} {w : GroupWorld} {o : FetchOptions} {rows : List Job}

/-- Jobs with distinct keys are no more than the jobs their keys are found among. -/
theorem length_le_of_jobKey {a b : List Job} (hnodup : (a.map Job.jobKey).Nodup)
    (h : ∀ x ∈ a, ∃ y ∈ b, y.jobKey = x.jobKey) : a.length ≤ b.length := by
  have hsub : a.map Job.jobKey ⊆ b.map Job.jobKey := by
    intro key hkey
    obtain ⟨x, hx, rfl⟩ := List.mem_map.mp hkey
    obtain ⟨y, hy, hyx⟩ := h x hx
    exact List.mem_map.mpr ⟨y, hy, hyx⟩
  simpa using (List.subperm_of_subset hnodup hsub).length_le

theorem Database.Allowed.nodup_jobKey {db : Database} (h : db.Allowed) : (db.jobs.map Job.jobKey).Nodup := by
  refine List.Nodup.map_on (fun a ha b hb hkey => h.eq_of_jobKey ha hb hkey) ?_
  exact h.consistent.nodup clashes_self

theorem jobKey_nodup (h : (rows.map Job.id).Nodup) : (rows.map Job.jobKey).Nodup := by
  refine List.Nodup.of_map Prod.snd ?_
  simpa [Function.comp_def, Job.jobKey] using h

/-- Active jobs of a group none of which the loop takes out, and those it takes out, were active
together. -/
theorem active_add_given {ids : List Uuid} {others : List Job} (hrows : (rows.map Job.jobKey).Nodup)
    (hothers : (others.map Job.jobKey).Nodup)
    (hactive : ∀ x ∈ others ++ givenOf ids (some group) rows, ∃ j ∈ w.db.jobs, j.jobKey = x.jobKey ∧ j.name = name ∧
      j.state = .active ∧ j.groupId = some group)
    (hdisjoint : ∀ x ∈ others, ∀ r ∈ givenOf ids (some group) rows, x.jobKey ≠ r.jobKey) :
    others.length + (givenOf ids (some group) rows).length ≤ activeInGroup name group w.db := by
  rw [activeInGroup, List.countP_eq_length_filter, ← List.length_append]
  refine length_le_of_jobKey ?_ fun x hx => ?_
  · rw [List.map_append, List.nodup_append]
    refine ⟨hothers, hrows.sublist (List.filter_sublist.map _), fun a ha b hb => ?_⟩
    obtain ⟨x, hx, rfl⟩ := List.mem_map.mp ha
    obtain ⟨r, hr, rfl⟩ := List.mem_map.mp hb
    exact hdisjoint x hx r hr
  · obtain ⟨j, hj, hkey, hgroup⟩ := hactive x hx
    exact ⟨j, List.mem_filter.mpr ⟨hj, decide_eq_true hgroup⟩, hkey⟩

/-- The recount read the batch's groups as the tables have them. -/
structure ReadsGroups (o : FetchOptions) (g : GroupConcurrency) (rows : List Job) : Prop where
  groups : o.groupConcurrency = some g
  ids : (rows.map Job.id).Nodup
  tiers : ∀ r ∈ rows, ∀ group, r.groupId = some group →
    group ≠ "" ∧ tierLimit g r.groupTier = some (g.limitFor r.groupTier)

theorem ReadsGroups.batch (h : ReadsGroups o g rows) {r : Job} (hr : r ∈ rows) (hgroup : r.groupId = some group) :
    group ∈ batchGroups rows :=
  List.mem_filter.mpr ⟨List.mem_filterMap.mpr ⟨r, hr, hgroup⟩, decide_eq_true (h.tiers r hr group hgroup).1⟩

/-- The recount is the loop, from the counts the tables have. -/
theorem ReadsGroups.recount_eq (h : ReadsGroups o g rows) {r : Job} (hr : r ∈ rows) (hgroup : r.groupId = some group) :
    ∃ active : Option String → Int, recount o rows w.db = excessIds g active rows.reverse ∧
      ∀ k ∈ rows, ∀ x, k.groupId = some x → active (some x) = activeInGroup o.name x w.db := by
  have hnonempty : (batchGroups rows).isEmpty = false := by
    simpa using List.ne_nil_of_mem (h.batch hr hgroup)
  refine ⟨fun group => countOf (getActiveGroupCounts o.name (batchGroups rows) w.db) group, ?_, fun k hk x hx => ?_⟩
  · simp [recount, h.groups, hnonempty]
  · exact congrArg Nat.cast (countOf_active (h.batch hk hx))

/-- Where a recount keeps a row, the group's count less the rows given back is within its limit. -/
theorem recount_within (h : ReadsGroups o g rows) {r : Job} (hr : r ∈ rows) (hkept : r.id ∉ recount o rows w.db)
    (hgroup : r.groupId = some group) : (activeInGroup o.name group w.db : Int) -
      (givenOf (recount o rows w.db) (some group) rows).length ≤ g.limitFor r.groupTier := by
  obtain ⟨active, hrecount, hread⟩ := h.recount_eq (w := w) hr hgroup
  have hwithin := excessIds_within (by simpa using h.ids) (List.mem_reverse.mpr hr) (hrecount ▸ hkept)
    (h.tiers r hr group hgroup).2
  have hgiven : (givenOf (recount o rows w.db) (some group) rows.reverse).length =
      (givenOf (recount o rows w.db) (some group) rows).length := by
    rw [givenOf, List.filter_reverse, List.length_reverse, ← givenOf]
  rw [hgroup, ← hrecount, hread r hr group hgroup, hgiven] at hwithin
  exact hwithin

/-- A row a recount gives back is of a group over its limit. -/
theorem recount_exceeds (h : ReadsGroups o g rows) {r : Job} (hr : r ∈ rows) (hid : r.id ∈ recount o rows w.db)
    (hgroup : r.groupId = some group) : g.limitFor r.groupTier < (activeInGroup o.name group w.db : Int) := by
  obtain ⟨active, hrecount, hread⟩ := h.recount_eq (w := w) hr hgroup
  obtain ⟨k, hk, hkid, hexceeds⟩ := excessIds_exceeds (hrecount ▸ hid)
  obtain rfl := List.inj_on_of_nodup_map h.ids (List.mem_reverse.mp hk) hr hkid
  rw [hgroup, hread k hr group hgroup, exceeds, (h.tiers k hr group hgroup).2] at hexceeds
  simpa using hexceeds

end Counted

section Returned

variable {name : String} {ids : List Uuid} {db : Database} {r : Job}

/-- A give-back restores rows it names that it reports as given back, and leaves the others. -/
theorem giveBackEach_mem (hr : r ∈ (giveBackEach name ids db).1.jobs) (hactive : r.state = .active) :
    r ∈ db.jobs ∧ named name (giveBackEach name ids db).2 r = false := by
  induction ids generalizing db with
  | nil => exact ⟨hr, by simp [giveBackEach, named]⟩
  | cons id rest ih =>
    cases hrun : restoreJobs name [id] db with
    | error e =>
      simp only [giveBackEach, hrun] at hr ⊢
      exact ih hr
    | ok out =>
      simp only [giveBackEach, hrun] at hr ⊢
      obtain ⟨hmem, hrest⟩ := ih hr
      rcases (Database.updateWhere_mem hrun).mp hmem with ⟨hmem, hnamed⟩ | ⟨j, -, -, rfl⟩
      · refine ⟨hmem, ?_⟩
        simp only [named, Bool.and_eq_false_iff, decide_eq_false_iff_not, List.mem_cons, not_or] at hnamed hrest ⊢
        tauto
      · cases hactive

/-- A row that is active after a give-back was there before, and was not given back. -/
theorem giveBack_mem (hr : r ∈ (giveBack name ids db).1.jobs) (hactive : r.state = .active) :
    r ∈ db.jobs ∧ named name (giveBack name ids db).2 r = false := by
  cases hrun : restoreJobs name ids db with
  | ok out =>
    simp only [giveBack, hrun] at hr ⊢
    rcases (Database.updateWhere_mem hrun).mp hr with hmem | ⟨j, -, -, rfl⟩
    · exact hmem
    · exact nomatch hactive
  | error e =>
    by_cases hone : ids.length = 1
    · simp only [giveBack, hrun, if_pos hone] at hr ⊢
      exact ⟨hr, by simp [named]⟩
    · simp only [giveBack, hrun, if_neg hone] at hr ⊢
      exact giveBackEach_mem hr hactive

theorem giveBackEach_allowed (hdb : db.Allowed) : (giveBackEach name ids db).1.Allowed := by
  induction ids generalizing db with
  | nil => exact hdb
  | cons id rest ih =>
    cases hrun : restoreJobs name [id] db with
    | error e => simpa only [giveBackEach, hrun] using ih hdb
    | ok out =>
      simp only [giveBackEach, hrun]
      exact ih (Database.updateWhere_allowed restoreSet hdb (fun _ => ⟨rfl, rfl⟩) hrun)

/-- A give-back keeps the constraints. -/
theorem giveBack_allowed (hdb : db.Allowed) : (giveBack name ids db).1.Allowed := by
  cases hrun : restoreJobs name ids db with
  | ok out =>
    simp only [giveBack, hrun]
    exact Database.updateWhere_allowed restoreSet hdb (fun _ => ⟨rfl, rfl⟩) hrun
  | error e =>
    by_cases hone : ids.length = 1
    · simpa only [giveBack, hrun, if_pos hone] using hdb
    · simpa only [giveBack, hrun, if_neg hone] using giveBackEach_allowed hdb

/-- A fetch whose give-back is not refused returns the rows it does not give back, and no row it
gives back is active. -/
theorem fetchReturn_spec (hdb : db.Allowed) (rows : List Job) (hfree : ∀ id ∈ ids, id ∈ (giveBack name ids db).2) :
    (fetchReturn name rows ids db).1.Allowed ∧
      (∀ r ∈ (fetchReturn name rows ids db).2, r ∈ rows ∧ r.id ∉ ids) ∧
      ∀ r ∈ (fetchReturn name rows ids db).1.jobs, r.state = .active →
        r ∈ db.jobs ∧ (r.name = name → r.id ∉ ids) := by
  cases ids with
  | nil => exact ⟨hdb, fun r hr => ⟨hr, List.not_mem_nil⟩, fun r hr _ => ⟨hr, fun _ => List.not_mem_nil⟩⟩
  | cons id rest =>
    refine ⟨giveBack_allowed hdb, fun r hr => ?_, fun r hr hactive => ?_⟩
    · obtain ⟨hr, hnot⟩ := List.mem_filter.mp hr
      exact ⟨hr, fun hid => of_decide_eq_true hnot (hfree _ hid)⟩
    · obtain ⟨hmem, hnamed⟩ := giveBack_mem hr hactive
      refine ⟨hmem, fun hname hid => ?_⟩
      simp [named, hname, hfree _ hid] at hnamed

end Returned

section Origins

variable {flow : Bool} {s : Statement} {db db' : Database} {j r : Job}

/-- A job that stays active keeps its group. -/
theorem Evolves.group (h : Evolves flow j r) (hactive : r.state = .active) :
    r.groupId = j.groupId ∧ r.groupTier = j.groupTier := by
  cases h with
  | update now o hwait => exact absurd hwait (by rw [show j.state = .active from hactive]; decide)
  | _ => exact ⟨rfl, rfl⟩

/-- A row a statement adds waits. -/
theorem adds_created (hr : r ∈ s.adds db) : r.state = .created := by
  rcases adds_cases hr with ⟨_, _, -, -, rfl⟩ | ⟨_, _, _, -, -, rfl⟩ | ⟨_, _, -, rfl⟩ <;> rfl

/-- A row that is active after a statement and that it did not claim was active before. -/
theorem active_origin (hdb : db.Allowed) (hexec : s.exec db = .ok db') (hr : r ∈ db'.jobs)
    (hactive : r.state = .active) (hclaim : r ∉ s.claimed db) :
    ∃ j ∈ db.jobs, j.jobKey = r.jobKey ∧ j.state = .active ∧ j.groupId = r.groupId ∧ j.groupTier = r.groupTier := by
  cases (s.exec_effect hdb hexec).rows r hr with
  | @moved j hj hmove =>
    obtain ⟨hgroup, htier⟩ := hmove.group hactive
    exact ⟨j, hj, hmove.jobKey.symm, hmove.attempt.2.2 hactive, hgroup.symm, htier.symm⟩
  | claimed _ _ _ _ hclaimed => exact absurd hclaimed hclaim
  | restored _ _ _ hset => exact nomatch (hset ▸ hactive : (restoreSet _).state = .active)
  | added hadd => rw [adds_created hadd] at hactive; contradiction

/-- A claim returns rows of the queue, each once, that waited and are active now; a row that was
active is as it was. -/
theorem fetchNextJobSince_spec {now : Timestamp} {rank : Job → ℕ} {locked : List JobKey} {o : FetchOptions}
    {snapshot : Database} {claimed : List Job} (hdb : db.Allowed)
    (hrun : fetchNextJobSince now rank locked o snapshot db = .ok (db', claimed)) :
    db'.Allowed ∧ (claimed.map Job.jobKey).Nodup ∧
      (∀ r ∈ claimed, r.name = o.name ∧ r ∈ db'.jobs ∧ r.state = .active ∧
        ∃ j ∈ db.jobs, j.jobKey = r.jobKey ∧ j.state ≠ .active) ∧
      ∀ j ∈ db.jobs, j.state = .active → j ∈ db'.jobs := by
  simp only [fetchNextJobSince] at hrun
  split at hrun
  · contradiction
  · rename_i ids hupdate
    obtain ⟨rfl, rfl⟩ := Prod.mk.inj (Except.ok.inj hrun)
    refine ⟨Database.updateWhere_allowed (claimSet now) hdb (fun _ => ⟨rfl, rfl⟩) hupdate, ?_, fun r hr => ?_,
      fun j hj hactive => (Database.updateWhere_mem hupdate).mpr (.inl ⟨hj, by simp [hactive]⟩)⟩
    · simpa [Function.comp_def] using hdb.nodup_jobKey.sublist (List.filter_sublist.map _)
    · obtain ⟨j, hj, rfl⟩ := List.mem_map.mp hr
      obtain ⟨hj, hs⟩ := List.mem_filter.mp hj
      have hmem := (Database.updateWhere_mem hupdate).mpr (.inr ⟨j, hj, hs, rfl⟩)
      simp only [fetchSelects, Bool.and_eq_true, decide_eq_true_eq] at hs
      refine ⟨hs.1.1.1, hmem, rfl, j, hj, rfl, fun hactive => ?_⟩
      simp [hactive] at hs

/-- Where nothing has committed since its snapshot, it is `fetchNextJob`. -/
theorem fetchNextJobSince_self (now : Timestamp) (rank : Job → ℕ) (locked : List JobKey) (o : FetchOptions)
    (hdb : db.Allowed) : fetchNextJobSince now rank locked o db db = fetchNextJob now rank locked o db := by
  have hwaits : ∀ j ∈ db.jobs, (fetchSelects now rank locked o db j && decide (j.state < .active)) =
      fetchSelects now rank locked o db j := by
    intro j hj
    by_cases hs : fetchSelects now rank locked o db j = true
    · obtain ⟨-, heligible, -⟩ := fetchChosen_mem ((fetchSelects_iff hdb hj).mp hs)
      rw [hs, Bool.true_and]
      exact decide_eq_true (fetchEligible_iff.mp heligible).2.1
    · simp [Bool.not_eq_true _ ▸ hs]
  rw [fetchNextJobSince, fetchNextJob, List.filter_congr hwaits,
    Database.updateWhere_congr (claimSet now) hwaits]

end Origins

namespace GroupWorld

/-- The recount that kept the job, for one that is active under a fetch's claim. -/
def keptAt (w : GroupWorld) (key : JobKey) : Option ℕ :=
  (w.owner key).bind fun f => (w.fetches f).bind (FetchPhase.keptAt key.2)

/-- The jobs of a group kept no later than a recount. -/
def keptBy (w : GroupWorld) (n : ℕ) (group : String) : List Job :=
  w.db.jobs.filter fun j => decide (j.groupId = some group) && (w.keptAt j.jobKey).any (· ≤ n)

/-- What a run keeps: a job's fetch has it in its batch and it is active still, and each kept
job is within its limit among the jobs kept no later than it. -/
structure Kept (w : GroupWorld) (name : String) (g : GroupConcurrency) : Prop where
  allowed : w.db.Allowed
  turns : ∀ f phase c, w.fetches f = some phase → phase.recount? = some c → c.turn < w.turn
  ids : ∀ f phase, w.fetches f = some phase → (phase.batch.map Job.id).Nodup
  names : ∀ f phase, w.fetches f = some phase → ∀ r ∈ phase.batch, r.name = name
  owned : ∀ key f, w.owner key = some f → ∃ phase, w.fetches f = some phase ∧ ∃ r ∈ phase.batch, r.jobKey = key ∧
    ∃ j ∈ w.db.jobs, j.jobKey = key ∧ j.state = .active ∧ j.groupId = r.groupId ∧ j.groupTier = r.groupTier
  limit : ∀ j ∈ w.db.jobs, ∀ n, w.keptAt j.jobKey = some n → ∀ group, j.groupId = some group →
    ((w.keptBy n group).length : Int) ≤ g.limitFor j.groupTier
  counted : ∀ f phase c, w.fetches f = some phase → phase.recount? = some c → ∀ r ∈ c.rows, r.id ∉ c.excess →
    ∀ group, r.groupId = some group → ((c.remaining name group).length : Int) ≤ g.limitFor r.groupTier
  delivered : ∀ f c rows, w.fetches f = some (.returned c rows) → ∀ r ∈ rows, r ∈ c.rows ∧ r.id ∉ c.excess

section Steps

variable {name : String} {g : GroupConcurrency} {w w' : GroupWorld} {f : ℕ} {rows : List Job} {db' : Database}

theorem Start.kept (h : w.Start) : w.Kept name g where
  allowed := h.allowed
  turns f phase c hf := by simp [h.fetches] at hf
  ids f phase hf := by simp [h.fetches] at hf
  names f phase hf := by simp [h.fetches] at hf
  owned key f hf := by simp [h.owner] at hf
  limit j _ n hn := by simp [keptAt, h.owner] at hn
  counted f phase c hf := by simp [h.fetches] at hf
  delivered f c rows hf := by simp [h.fetches] at hf

/-- The phases after one fetch has come to a new one. -/
theorem update_cases {fetches : ℕ → Option FetchPhase} {f' : ℕ} {phase phase' : FetchPhase}
    (h : Function.update fetches f (some phase) f' = some phase') :
    (f' = f ∧ phase' = phase) ∨ (f' ≠ f ∧ fetches f' = some phase') := by
  by_cases hff : f' = f
  · subst hff
    rw [Function.update_self] at h
    exact .inl ⟨rfl, (Option.some.inj h).symm⟩
  · rw [Function.update_of_ne hff] at h
    exact .inr ⟨hff, h⟩

theorem mem_keptBy {n : ℕ} {group : String} {j : Job} : j ∈ w.keptBy n group ↔
    j ∈ w.db.jobs ∧ j.groupId = some group ∧ ∃ m, w.keptAt j.jobKey = some m ∧ m ≤ n := by
  cases hkept : w.keptAt j.jobKey <;> simp [keptBy, hkept]

/-- Where every kept job was kept before, at the same recount, the limits still hold. -/
theorem limit_of_kept (hallowed : w'.db.Allowed)
    (hback : ∀ r ∈ w'.db.jobs, ∀ n, w'.keptAt r.jobKey = some n → ∃ j ∈ w.db.jobs, j.jobKey = r.jobKey ∧
      j.groupId = r.groupId ∧ j.groupTier = r.groupTier ∧ w.keptAt r.jobKey = some n)
    (hlimit : ∀ j ∈ w.db.jobs, ∀ n, w.keptAt j.jobKey = some n → ∀ group, j.groupId = some group →
      ((w.keptBy n group).length : Int) ≤ g.limitFor j.groupTier) :
    ∀ r ∈ w'.db.jobs, ∀ n, w'.keptAt r.jobKey = some n → ∀ group, r.groupId = some group →
      ((w'.keptBy n group).length : Int) ≤ g.limitFor r.groupTier := by
  intro r hr n hn group hgroup
  obtain ⟨j, hj, hkey, hjgroup, hjtier, hjkept⟩ := hback r hr n hn
  have hbound := hlimit j hj n (hkey ▸ hjkept) group (hjgroup.trans hgroup)
  have hle : (w'.keptBy n group).length ≤ (w.keptBy n group).length := by
    refine length_le_of_jobKey (hallowed.nodup_jobKey.sublist (List.filter_sublist.map _)) fun x hx => ?_
    obtain ⟨hx, hxgroup, m, hm, hle⟩ := mem_keptBy.mp hx
    obtain ⟨y, hy, hykey, hygroup, -, hykept⟩ := hback x hx m hm
    exact ⟨y, mem_keptBy.mpr ⟨hy, hygroup.trans hxgroup, m, hykey ▸ hykept, hle⟩, hykey⟩
  rw [← hjtier]
  omega

theorem runs_iff {db : Database} {key : JobKey} :
    db.runs key = true ↔ ∃ j ∈ db.jobs, j.jobKey = key ∧ j.state = .active := by
  simp [Database.runs]

/-- Tables in which every active job of the queue was active before keep it. -/
theorem Kept.settle (h : w.Kept name g) (hallowed : db'.Allowed)
    (horigin : ∀ r ∈ db'.jobs, r.state = .active → r.name = name → ∃ j ∈ w.db.jobs, j.jobKey = r.jobKey ∧
      j.state = .active ∧ j.groupId = r.groupId ∧ j.groupTier = r.groupTier) :
    (w.settle db').Kept name g := by
  have howner : ∀ {key f}, (w.settle db').owner key = some f → w.owner key = some f ∧
      ∃ r ∈ db'.jobs, r.jobKey = key ∧ r.state = .active := by
    intro key f hf
    simp only [GroupWorld.settle] at hf
    split at hf
    · rename_i hruns
      exact ⟨hf, runs_iff.mp hruns⟩
    · contradiction
  have hback : ∀ {key f}, (w.settle db').owner key = some f → ∃ phase, w.fetches f = some phase ∧
      ∃ k ∈ phase.batch, k.jobKey = key ∧ ∃ r ∈ db'.jobs, r.jobKey = key ∧ r.state = .active ∧
        r.groupId = k.groupId ∧ r.groupTier = k.groupTier ∧ ∃ j ∈ w.db.jobs, j.jobKey = key ∧
          j.groupId = r.groupId ∧ j.groupTier = r.groupTier := by
    intro key f hf
    obtain ⟨hold, r, hr, hrkey, hactive⟩ := howner hf
    obtain ⟨phase, hphase, k, hk, hkkey, j, hj, hjkey, -, hjgroup, hjtier⟩ := h.owned key f hold
    have hname : r.name = name :=
      (congrArg Prod.fst (hrkey.trans hkkey.symm)).trans (h.names f phase hphase k hk)
    obtain ⟨i, hi, hikey, -, higroup, hitier⟩ := horigin r hr hactive hname
    obtain rfl := h.allowed.eq_of_jobKey hi hj (hikey.trans (hrkey.trans hjkey.symm))
    exact ⟨phase, hphase, k, hk, hkkey, r, hr, hrkey, hactive, higroup.symm.trans hjgroup,
      hitier.symm.trans hjtier, i, hi, hjkey, higroup, hitier⟩
  refine ⟨hallowed, h.turns, h.ids, h.names, fun key f hf => ?_, ?_, h.counted, h.delivered⟩
  · obtain ⟨phase, hphase, k, hk, hkkey, r, hr, hrkey, hactive, hgroup, htier, -⟩ := hback hf
    exact ⟨phase, hphase, k, hk, hkkey, r, hr, hrkey, hactive, hgroup, htier⟩
  · refine limit_of_kept hallowed (fun r hr n hn => ?_) h.limit
    obtain ⟨f, hf, hn⟩ := Option.bind_eq_some_iff.mp hn
    obtain ⟨-, -, -, -, -, r', hr', hrkey, -, -, -, j, hj, hjkey, hgroup, htier⟩ := hback hf
    obtain rfl := hallowed.eq_of_jobKey hr hr' hrkey.symm
    exact ⟨j, hj, hjkey, hgroup, htier, Option.bind_eq_some_iff.mpr ⟨f, (howner hf).1, hn⟩⟩

/-- A statement that claims nothing of the queue keeps it. -/
theorem Kept.exec (h : w.Kept name g) {s : Statement} (hclaims : ∀ r ∈ s.claimed w.db, r.name ≠ name)
    (hrun : s.exec w.db = .ok db') : (w.settle db').Kept name g :=
  h.settle (s.exec_effect h.allowed hrun).allowed fun _ hr hactive hname =>
    active_origin h.allowed hrun hr hactive fun hclaim => hclaims _ hclaim hname

/-- The claim of a new fetch keeps it: it takes waiting rows, which no fetch owns. -/
theorem Kept.claim (h : w.Kept name g) {now : Timestamp} {rank : Job → ℕ} {locked : List JobKey}
    {o : FetchOptions} {snapshot : Database} {claimed : List Job} (hnew : w.fetches f = none) (hname : o.name = name)
    (hrun : fetchNextJobSince now rank locked o snapshot w.db = .ok (db', claimed)) (hrows : rows.Perm claimed) :
    (w.claim f rows db').Kept name g := by
  obtain ⟨hallowed, hkeys, hclaimed, hactive⟩ := fetchNextJobSince_spec h.allowed hrun
  have hbatch : ∀ r ∈ rows, r.name = name ∧ r ∈ db'.jobs ∧ r.state = .active ∧
      ∃ j ∈ w.db.jobs, j.jobKey = r.jobKey ∧ j.state ≠ .active := fun r hr => by
    obtain ⟨hrname, hrest⟩ := hclaimed r (hrows.mem_iff.mp hr)
    exact ⟨hrname.trans hname, hrest⟩
  have hold : ∀ {key f'}, w.owner key = some f' → key ∉ rows.map Job.jobKey ∧
      (w.claim f rows db').fetches f' = w.fetches f' ∧ ∀ j ∈ w.db.jobs, j.jobKey = key → j ∈ db'.jobs := by
    intro key f' hf'
    obtain ⟨phase, hf, -, -, -, j, hj, hjkey, hjactive, -⟩ := h.owned key f' hf'
    have hne : f' ≠ f := fun heq => by rw [heq, hnew] at hf; contradiction
    refine ⟨fun hkey => ?_, by simp [GroupWorld.claim, Function.update_of_ne hne], fun k hk hkkey => ?_⟩
    · obtain ⟨r, hr, hrkey⟩ := List.mem_map.mp hkey
      obtain ⟨-, -, -, k, hk, hkkey, hwait⟩ := hbatch r hr
      obtain rfl := h.allowed.eq_of_jobKey hk hj (hkkey.trans (hrkey.trans hjkey.symm))
      exact hwait hjactive
    · obtain rfl := h.allowed.eq_of_jobKey hk hj (hkkey.trans hjkey.symm)
      exact hactive k hk hjactive
  refine ⟨hallowed, fun f' phase c hf' hc => ?_, fun f' phase hf' => ?_, fun f' phase hf' => ?_,
    fun key f' hf' => ?_, ?_, fun f' phase c hf' hc => ?_, fun f' c out hf' => ?_⟩
  · rcases update_cases hf' with ⟨-, rfl⟩ | ⟨-, hf'⟩
    · exact nomatch hc
    · exact h.turns f' phase c hf' hc
  · rcases update_cases hf' with ⟨-, rfl⟩ | ⟨-, hf'⟩
    · have hkeys : (rows.map Job.jobKey).Nodup := (hrows.map _).nodup_iff.mpr hkeys
      refine List.Nodup.map_on (fun a ha b hb hid => ?_) (hkeys.of_map _)
      have hname := (hbatch a ha).1.trans (hbatch b hb).1.symm
      exact List.inj_on_of_nodup_map hkeys ha hb (Prod.ext hname hid)
    · exact h.ids f' phase hf'
  · rcases update_cases hf' with ⟨-, rfl⟩ | ⟨-, hf'⟩
    · exact fun r hr => (hbatch r hr).1
    · exact h.names f' phase hf'
  · by_cases hkey : key ∈ rows.map Job.jobKey
    · simp only [GroupWorld.claim, if_pos hkey, Option.some.injEq] at hf'
      subst hf'
      obtain ⟨r, hr, rfl⟩ := List.mem_map.mp hkey
      obtain ⟨-, hmem, hractive, -⟩ := hbatch r hr
      exact ⟨.claimed rows, by simp [GroupWorld.claim], r, hr, rfl, r, hmem, rfl, hractive, rfl, rfl⟩
    · simp only [GroupWorld.claim, if_neg hkey] at hf'
      obtain ⟨-, hfetch, hmem⟩ := hold hf'
      obtain ⟨phase, hf, r, hr, hrkey, j, hj, hjkey, hrest⟩ := h.owned key f' hf'
      exact ⟨phase, hfetch.trans hf, r, hr, hrkey, j, hmem j hj hjkey, hjkey, hrest⟩
  · refine limit_of_kept hallowed (fun r hr n hn => ?_) h.limit
    obtain ⟨f', hf', hn⟩ := Option.bind_eq_some_iff.mp hn
    by_cases hkey : r.jobKey ∈ rows.map Job.jobKey
    · simp only [GroupWorld.claim, if_pos hkey, Option.some.injEq] at hf'
      subst hf'
      simp [GroupWorld.claim, FetchPhase.keptAt] at hn
    · simp only [GroupWorld.claim, if_neg hkey] at hf'
      obtain ⟨-, hfetch, hmem⟩ := hold hf'
      obtain ⟨phase, hf, -, -, -, j, hj, hjkey, -⟩ := h.owned _ f' hf'
      obtain rfl := hallowed.eq_of_jobKey (hmem j hj hjkey) hr hjkey
      exact ⟨j, hj, rfl, rfl, rfl, Option.bind_eq_some_iff.mpr ⟨f', hf', by rwa [hfetch] at hn⟩⟩
  · rcases update_cases hf' with ⟨-, rfl⟩ | ⟨-, hf'⟩
    · exact nomatch hc
    · exact h.counted f' phase c hf' hc
  · rcases update_cases hf' with ⟨-, hout⟩ | ⟨-, hf'⟩
    · exact nomatch hout
    · exact h.delivered f' c out hf'

section Recount

variable {o : FetchOptions}

/-- The rows of a batch whose claims the fetch still holds are active. -/
theorem Kept.held_row (h : w.Kept name g) (hphase : w.fetches f = some (.claimed rows)) {r : Job} (hr : r ∈ rows)
    (howner : w.owner r.jobKey = some f) :
    ∃ j ∈ w.db.jobs, j.jobKey = r.jobKey ∧ j.name = name ∧ j.state = .active ∧ j.groupId = r.groupId := by
  obtain ⟨phase, hf, i, hi, hikey, j, hj, hjkey, hactive, hgroup, -⟩ := h.owned _ f howner
  obtain rfl := Option.some.inj (hphase.symm.trans hf)
  obtain rfl := List.inj_on_of_nodup_map (h.ids f _ hphase) hi hr (congrArg Prod.snd hikey)
  exact ⟨j, hj, hjkey, (congrArg Prod.fst hjkey).trans (h.names f _ hphase i hr), hactive, hgroup⟩

/-- A row the loop takes out is of a group over its limit, so this fetch holds it still. -/
theorem Kept.given_held (h : w.Kept o.name g) (hgroups : o.groupConcurrency = some g)
    (hphase : w.fetches f = some (.claimed rows)) (hright : CountsRight o.name g w f rows) {group : String} {r : Job}
    (hr : r ∈ givenOf (PgBoss.recount o rows w.db) (some group) rows) :
    w.owner r.jobKey = some f ∧ r ∈ rows ∧ r.groupId = some group ∧ r.id ∈ PgBoss.recount o rows w.db := by
  obtain ⟨hr, hin⟩ := List.mem_filter.mp hr
  obtain ⟨hgroup, hid⟩ := of_decide_eq_true hin
  refine ⟨(hright.held r hr group hgroup).resolve_right fun hle => ?_, hr, hgroup, hid⟩
  have hexceeds := recount_exceeds ⟨hgroups, h.ids f _ hphase, hright.tiers⟩ hr hid hgroup
  omega

/-- The active jobs of a group that the recount leaves alone are within the limit of each job it keeps. -/
theorem Kept.within_limit (h : w.Kept o.name g) (hgroups : o.groupConcurrency = some g)
    (hphase : w.fetches f = some (.claimed rows)) (hright : CountsRight o.name g w f rows) {group : String}
    {others : List Job} (hsub : others.Sublist w.db.jobs)
    (hothers : ∀ x ∈ others, x.name = o.name ∧ x.state = .active ∧ x.groupId = some group)
    (hdisjoint : ∀ x ∈ others, ∀ r ∈ givenOf (PgBoss.recount o rows w.db) (some group) rows, x.jobKey ≠ r.jobKey)
    {r : Job} (hr : r ∈ rows) (hkept : r.id ∉ PgBoss.recount o rows w.db) (hgroup : r.groupId = some group) :
    (others.length : Int) ≤ g.limitFor r.groupTier := by
  have hids : (rows.map Job.id).Nodup := h.ids f _ hphase
  have hwithin := recount_within (w := w) ⟨hgroups, hids, hright.tiers⟩ hr hkept hgroup
  have hadd : others.length + (givenOf (PgBoss.recount o rows w.db) (some group) rows).length ≤
      activeInGroup o.name group w.db := by
    refine active_add_given (jobKey_nodup hids) (h.allowed.nodup_jobKey.sublist (hsub.map _)) (fun x hx => ?_) hdisjoint
    rcases List.mem_append.mp hx with hx | hx
    · exact ⟨x, hsub.mem hx, rfl, hothers x hx⟩
    · obtain ⟨howner, hx, hxgroup, -⟩ := h.given_held hgroups hphase hright hx
      obtain ⟨j, hj, hkey, hjname, hactive, hjgroup⟩ := h.held_row hphase hx howner
      exact ⟨j, hj, hkey, hjname, hactive, hjgroup.trans hxgroup⟩
  omega

/-- After a recount a job is kept because the recount kept it, or as it was kept before. -/
theorem Kept.keptAt_recounted (h : w.Kept o.name g) {key : JobKey} {n : ℕ}
    (hn : (w.recounted f (w.recountOf o rows)).keptAt key = some n) :
    (w.owner key = some f ∧ key.2 ∉ PgBoss.recount o rows w.db ∧ n = w.turn) ∨
      (n < w.turn ∧ w.keptAt key = some n) := by
  obtain ⟨f', hf', hn⟩ := Option.bind_eq_some_iff.mp hn
  obtain ⟨phase, hphase', hn⟩ := Option.bind_eq_some_iff.mp hn
  rcases update_cases hphase' with ⟨rfl, rfl⟩ | ⟨-, hphase'⟩
  · obtain ⟨hin, hturn⟩ := FetchPhase.keptAt_recounted.mp hn
    exact .inl ⟨hf', hin, hturn.symm⟩
  · have hbefore : w.keptAt key = some n :=
      Option.bind_eq_some_iff.mpr ⟨f', hf', Option.bind_eq_some_iff.mpr ⟨phase, hphase', hn⟩⟩
    obtain ⟨c, hc, hturn⟩ := FetchPhase.keptAt_turn hn
    exact .inr ⟨hturn ▸ h.turns f' phase c hphase' hc, hbefore⟩

/-- Nothing a fetch holds is kept before its recount. -/
theorem not_owned_of_keptAt (hphase : w.fetches f = some (.claimed rows)) {key : JobKey} {m : ℕ}
    (hm : w.keptAt key = some m) : w.owner key ≠ some f := by
  intro howner
  simp [keptAt, howner, hphase, FetchPhase.keptAt] at hm

/-- A recount that reads its batch right keeps it: the jobs it keeps come last, and with the jobs
kept before them they were among those it left active. -/
theorem Kept.recount (h : w.Kept name g) (hname : o.name = name)
    (hgroups : o.groupConcurrency = some g) (hphase : w.fetches f = some (.claimed rows))
    (hright : CountsRight name g w f rows) : (w.recounted f (w.recountOf o rows)).Kept name g := by
  subst hname
  refine ⟨h.allowed, fun f' phase c hf' hc => ?_, fun f' phase hf' => ?_, fun f' phase hf' => ?_,
    fun key f' hf' => ?_, fun j hj n hn group hgroup => ?_, fun f' phase c hf' hc => ?_, fun f' c out hf' => ?_⟩
  · rcases update_cases hf' with ⟨-, rfl⟩ | ⟨-, hf'⟩
    · obtain rfl := Option.some.inj hc
      exact Nat.lt_succ_self w.turn
    · exact Nat.lt_succ_of_lt (h.turns f' phase c hf' hc)
  · rcases update_cases hf' with ⟨-, rfl⟩ | ⟨-, hf'⟩
    · exact h.ids f (.claimed rows) hphase
    · exact h.ids f' phase hf'
  · rcases update_cases hf' with ⟨-, rfl⟩ | ⟨-, hf'⟩
    · exact h.names f (.claimed rows) hphase
    · exact h.names f' phase hf'
  · obtain ⟨phase, hf, hrest⟩ := h.owned key f' hf'
    by_cases hff : f' = f
    · subst hff
      obtain rfl := Option.some.inj (hphase.symm.trans hf)
      exact ⟨.recounted (w.recountOf o rows), by simp [recounted], hrest⟩
    · exact ⟨phase, by simpa [recounted, Function.update_of_ne hff] using hf, hrest⟩
  · rcases h.keptAt_recounted hn with ⟨howner, hin, rfl⟩ | ⟨hlt, hbefore⟩
    · obtain ⟨phase, hf, r, hr, hrkey, i, hi, hikey, -, higroup, hitier⟩ := h.owned _ f howner
      obtain rfl := Option.some.inj (hphase.symm.trans hf)
      obtain rfl := h.allowed.eq_of_jobKey hi hj hikey
      have hrid : r.id = i.id := congrArg Prod.snd hrkey
      rw [hitier]
      refine h.within_limit hgroups hphase hright List.filter_sublist (fun x hx => ?_) (fun x hx k hk hkey => ?_)
        hr (hrid ▸ hin) (higroup.symm.trans hgroup)
      · obtain ⟨hx, hxgroup, m, hm, -⟩ := mem_keptBy.mp hx
        obtain ⟨f', hf', -⟩ := Option.bind_eq_some_iff.mp hm
        obtain ⟨phase, hf, k, hk, hkkey, y, hy, hykey, hactive, -⟩ := h.owned _ f' hf'
        obtain rfl := h.allowed.eq_of_jobKey hy hx hykey
        exact ⟨(congrArg Prod.fst hkkey).symm.trans (h.names f' phase hf k hk), hactive, hxgroup⟩
      · obtain ⟨-, -, m, hm, -⟩ := mem_keptBy.mp hx
        obtain ⟨howner, -, -, hid⟩ := h.given_held hgroups hphase hright hk
        rcases h.keptAt_recounted hm with ⟨-, hnot, -⟩ | ⟨-, hbefore⟩
        · exact hnot (congrArg Prod.snd hkey ▸ hid)
        · exact not_owned_of_keptAt hphase hbefore (hkey ▸ howner)
    · have hsame : ((w.recounted f (w.recountOf o rows)).keptBy n group).length ≤ (w.keptBy n group).length := by
        refine length_le_of_jobKey (h.allowed.nodup_jobKey.sublist (List.filter_sublist.map _)) fun x hx => ?_
        obtain ⟨hx, hxgroup, m, hm, hle⟩ := mem_keptBy.mp hx
        rcases h.keptAt_recounted hm with ⟨-, -, rfl⟩ | ⟨-, hm⟩
        · omega
        · exact ⟨x, mem_keptBy.mpr ⟨hx, hxgroup, m, hm, hle⟩, rfl⟩
      have hbound := h.limit j hj n hbefore group hgroup
      omega
  · rcases update_cases hf' with ⟨-, rfl⟩ | ⟨-, hf'⟩
    · obtain rfl := Option.some.inj hc
      intro r hr hkept group hgroup
      refine h.within_limit hgroups hphase hright List.filter_sublist (fun x hx => ?_) (fun x hx k hk hkey => ?_)
        hr hkept hgroup
      · obtain ⟨-, hx⟩ := List.mem_filter.mp hx
        exact of_decide_eq_true (Bool.and_eq_true _ _ ▸ hx).1
      · obtain ⟨-, hx⟩ := List.mem_filter.mp hx
        obtain ⟨-, -, -, hid⟩ := h.given_held hgroups hphase hright hk
        have hid : x.id ∈ PgBoss.recount o rows w.db := by rwa [show x.id = k.id from congrArg Prod.snd hkey]
        simp [recountOf, hid] at hx
    · exact h.counted f' phase c hf' hc
  · rcases update_cases hf' with ⟨-, hphase'⟩ | ⟨-, hf'⟩
    · exact nomatch hphase'
    · exact h.delivered f' c out hf'

end Recount

/-- A fetch may return once none of what it gives back is active under it. -/
theorem Kept.returned (h : w.Kept name g) {c : Recount} (hphase : w.fetches f = some (.recounted c))
    (hgone : ∀ key, w.owner key = some f → key.2 ∉ c.excess) (hrows : ∀ r ∈ rows, r ∈ c.rows ∧ r.id ∉ c.excess) :
    (w.returned f c rows).Kept name g := by
  have hkept : ∀ key, (w.returned f c rows).keptAt key = w.keptAt key := by
    intro key
    cases howner : w.owner key with
    | none => simp [keptAt, GroupWorld.returned, howner]
    | some f' =>
      by_cases hff : f' = f
      · subst hff
        simp [keptAt, GroupWorld.returned, howner, hphase, FetchPhase.keptAt, hgone key howner]
      · simp [keptAt, GroupWorld.returned, howner, Function.update_of_ne hff]
  refine ⟨h.allowed, fun f' phase c' hf' hc => ?_, fun f' phase hf' => ?_, fun f' phase hf' => ?_,
    fun key f' hf' => ?_, fun r hr n hn => ?_, fun f' phase c' hf' hc => ?_, fun f' c' out hf' => ?_⟩
  · rcases update_cases hf' with ⟨-, rfl⟩ | ⟨-, hf'⟩
    · exact h.turns f (.recounted c) c' hphase hc
    · exact h.turns f' phase c' hf' hc
  · rcases update_cases hf' with ⟨-, rfl⟩ | ⟨-, hf'⟩
    · exact h.ids f (.recounted c) hphase
    · exact h.ids f' phase hf'
  · rcases update_cases hf' with ⟨-, rfl⟩ | ⟨-, hf'⟩
    · exact h.names f (.recounted c) hphase
    · exact h.names f' phase hf'
  · obtain ⟨phase, hf, hrest⟩ := h.owned key f' hf'
    by_cases hff : f' = f
    · subst hff
      obtain rfl := Option.some.inj (hphase.symm.trans hf)
      exact ⟨.returned c rows, Function.update_self .., hrest⟩
    · exact ⟨phase, (Function.update_of_ne hff ..).trans hf, hrest⟩
  · refine limit_of_kept (show (w.returned f c rows).db.Allowed from h.allowed) (fun r hr n hn => ?_) h.limit r hr n hn
    exact ⟨r, hr, rfl, rfl, rfl, (hkept _).symm.trans hn⟩
  · rcases update_cases hf' with ⟨-, rfl⟩ | ⟨-, hf'⟩
    · exact h.counted f (.recounted c) c' hphase hc
    · exact h.counted f' phase c' hf' hc
  · rcases update_cases hf' with ⟨-, hout⟩ | ⟨-, hf'⟩
    · obtain ⟨rfl, rfl⟩ := FetchPhase.returned.inj hout
      exact hrows
    · exact h.delivered f' c' out hf'

/-- The give-back and the return keep it: what the fetch gives back is active no more, and it
returns the rest. -/
theorem Kept.returns (h : w.Kept name g) {c : Recount} (hphase : w.fetches f = some (.recounted c))
    (hfree : ∀ id ∈ c.excess, id ∈ (PgBoss.giveBack name c.excess w.db).2) : (w.returns name f c).Kept name g := by
  obtain ⟨hallowed, hout, hrow⟩ := fetchReturn_spec h.allowed c.rows hfree
  have hsettled : (w.settle (fetchReturn name c.rows c.excess w.db).1).Kept name g :=
    h.settle hallowed fun r hr hactive _ => ⟨r, (hrow r hr hactive).1, rfl, hactive, rfl, rfl⟩
  refine hsettled.returned hphase (fun key hkey hid => ?_) hout
  obtain ⟨phase, hf, r, hr, hrkey, j, hj, hjkey, hactive, -⟩ := hsettled.owned key f hkey
  have hname : j.name = name :=
    (congrArg Prod.fst (hjkey.trans hrkey.symm)).trans (hsettled.names f phase hf r hr)
  exact (hrow j hj hactive).2 hname (by rwa [show j.id = key.2 from congrArg Prod.snd hjkey])

/-- A run whose recounts read their batches right keeps it. -/
theorem Run.kept {w₀ : GroupWorld} (hstart : w₀.Start) (hrun : Run name g (CountsRight name g) w₀ w) :
    w.Kept name g := by
  induction hrun with
  | refl => exact hstart.kept
  | tail _ hlast ih =>
    cases hlast with
    | claim f now rank locked o snapshot db' claimed rows hnew hname _ hrun hrows =>
      exact ih.claim hnew hname hrun hrows
    | recount f o rows hname hgroups hphase hright => exact ih.recount hname hgroups hphase hright
    | giveBack f c hphase hfree => exact ih.returns hphase hfree
    | exec s db' hclaims hrun => exact ih.exec hclaims hrun

end Steps

section Limits

variable {name : String} {g : GroupConcurrency} {w : GroupWorld}

/-- A delivered job was kept by the recount of the fetch that returned it. -/
theorem keptAt_of_delivered {j : Job} (h : w.delivered j = true) : ∃ n, w.keptAt j.jobKey = some n := by
  cases howner : w.owner j.jobKey with
  | none => simp [delivered, howner] at h
  | some f =>
    cases hphase : w.fetches f with
    | none => simp [delivered, howner, hphase] at h
    | some phase =>
      cases phase with
      | returned c rows => exact ⟨c.turn, by simp [keptAt, howner, hphase, FetchPhase.keptAt]⟩
      | _ => simp [delivered, howner, hphase, FetchPhase.delivers] at h

/-- What a run keeps gives the limits: of the delivered jobs of a group the last recounted one is
within its limit among all of them. -/
theorem Kept.withinLimits (h : w.Kept name g) : w.WithinLimits name g := by
  refine ⟨fun group hne => ?_, fun f c rows hf r hr group hgroup => ?_⟩
  · obtain ⟨j, hj, hmax⟩ := (w.deliveredOf name group).toFinset.exists_max_image
      (fun j => (w.keptAt j.jobKey).getD 0) (List.toFinset_nonempty_iff _ |>.mpr hne)
    rw [List.mem_toFinset] at hj
    refine ⟨j, hj, ?_⟩
    obtain ⟨hjdb, hjin⟩ := List.mem_filter.mp hj
    rw [Bool.and_eq_true, decide_eq_true_eq] at hjin
    obtain ⟨n, hn⟩ := keptAt_of_delivered hjin.2
    have hle : (w.deliveredOf name group).length ≤ (w.keptBy n group).length := by
      refine length_le_of_jobKey (h.allowed.nodup_jobKey.sublist (List.filter_sublist.map _)) fun x hx => ?_
      have hxmax := hmax x (List.mem_toFinset.mpr hx)
      obtain ⟨hxdb, hxin⟩ := List.mem_filter.mp hx
      rw [Bool.and_eq_true, decide_eq_true_eq] at hxin
      obtain ⟨m, hm⟩ := keptAt_of_delivered hxin.2
      rw [hn, hm, Option.getD_some, Option.getD_some] at hxmax
      exact ⟨x, mem_keptBy.mpr ⟨hxdb, hxin.1.2.2, m, hm, hxmax⟩, rfl⟩
    have hbound := h.limit j hjdb n hn group hjin.1.2.2
    omega
  · obtain ⟨hin, hkept⟩ := h.delivered f c rows hf r hr
    exact h.counted f _ c hf rfl r hin hkept group hgroup

/-- The limits hold after any number of racing fetches of one configuration, in any interleaving
of their steps and of other statements, whose recounts read their batches right. -/
theorem groupConcurrency_holds {w₀ : GroupWorld} (hstart : w₀.Start)
    (hrun : Run name g (CountsRight name g) w₀ w) : w.WithinLimits name g :=
  (Run.kept hstart hrun).withinLimits

end Limits

end GroupWorld

section Tenant

/-- A waiting job of a tenant. -/
def tenantJob (id : Uuid) : Job where
  id := id
  name := "q"
  groupId := some "tenant"
  startAfter := 0
  createdOn := 0
  keepUntil := 0
  policy := some .standard

/-- Two jobs of a group may run. -/
def twoEach : GroupConcurrency := { default := 2 }

/-- A batch of the queue. -/
def tenantBatch : FetchOptions :=
  { name := "q", policy := .standard, limit := 2, groupConcurrency := some twoEach }

/-- Such a job under a claim. -/
def tenantRuns (id : Uuid) : Job := claimSet 1 (tenantJob id)

/-- Four jobs of the tenant wait. -/
def tenants : GroupWorld := { db := { jobs := [tenantJob 1, tenantJob 2, tenantJob 3, tenantJob 4] } }

/-- A fetch has claimed two of them. -/
def tenantsClaimed : GroupWorld := tenants.claim 0 [tenantRuns 1, tenantRuns 2]
  { jobs := [tenantRuns 1, tenantRuns 2, tenantJob 3, tenantJob 4] }

/-- Another has claimed the other two, from what was there before. -/
def claimedToo (w : GroupWorld) : GroupWorld := w.claim 1 [tenantRuns 3, tenantRuns 4]
  { jobs := [tenantRuns 1, tenantRuns 2, tenantRuns 3, tenantRuns 4] }

/-- The world after a fetch has counted and returned at once. -/
def GroupWorld.finishes (w : GroupWorld) (f : ℕ) (rows : List Job) : GroupWorld :=
  (w.recounted f (w.recountOf tenantBatch rows)).returns "q" f (w.recountOf tenantBatch rows)

/-- One of the second fetch's jobs is completed after the first has returned. -/
def tenantsCompleted : GroupWorld :=
  (claimedToo (tenantsClaimed.finishes 0 [tenantRuns 1, tenantRuns 2])).settle
    { jobs := [tenantRuns 1, tenantRuns 2, tenantRuns 3, completeSet 2 none false (tenantRuns 4)] }

section Runs

variable {may : GroupWorld → ℕ → List Job → Prop} {w₀ w : GroupWorld}

theorem tenants_start : tenants.Start := ⟨⟨by decide, by decide⟩, fun _ => rfl, fun _ => rfl⟩

theorem tenantsClaimed_run : GroupWorld.Run "q" twoEach may tenants tenantsClaimed :=
  .single (.claim 0 1 (fun _ => 0) [] tenantBatch tenants.db _ _ _ rfl rfl rfl rfl (.refl _))

theorem claimedToo_run (hrun : GroupWorld.Run "q" twoEach may w₀ w) (hnew : w.fetches 1 = none)
    (hjobs : w.db = { jobs := [tenantRuns 1, tenantRuns 2, tenantJob 3, tenantJob 4] }) :
    GroupWorld.Run "q" twoEach may w₀ (claimedToo w) :=
  hrun.tail (.claim 1 1 (fun _ => 0) [("q", 1), ("q", 2)] tenantBatch tenants.db _ [tenantRuns 3, tenantRuns 4] _
    hnew rfl rfl (by rw [hjobs]; rfl) (.refl _))

theorem finishes_run (f : ℕ) (rows : List Job) (hrun : GroupWorld.Run "q" twoEach may w₀ w)
    (hphase : w.fetches f = some (.claimed rows)) (hmay : may w f rows)
    (hfree : (giveBack "q" (recount tenantBatch rows w.db) w.db).2 = recount tenantBatch rows w.db) :
    GroupWorld.Run "q" twoEach may w₀ (w.finishes f rows) :=
  (hrun.tail (.recount f tenantBatch rows rfl rfl hphase hmay)).tail
    (.giveBack f _ (Function.update_self ..) fun _ hid => hfree ▸ hid)

/-- A batch of the tenant's jobs that are all held still is read right. -/
theorem tenants_countsRight {f : ℕ} {rows : List Job} (hgroup : ∀ r ∈ rows, r.groupId = some "tenant" ∧ r.groupTier = none)
    (hheld : ∀ r ∈ rows, w.owner r.jobKey = some f) : GroupWorld.CountsRight "q" twoEach w f rows where
  tiers r hr group hsome := by
    obtain ⟨htenant, htier⟩ := hgroup r hr
    obtain rfl := Option.some.inj (htenant.symm.trans hsome)
    exact ⟨by decide, by rw [htier]; rfl⟩
  held r hr _ _ := .inl (hheld r hr)

end Runs

/-- A fetch returns two jobs. Another, whose statement did not see that claim, claims the other two,
and one of these is completed before it counts: it gives the completed job back and keeps the
other, so three jobs of the tenant run. -/
theorem completed_overruns : tenants.Start ∧ ∃ w, GroupWorld.Run "q" twoEach (fun _ _ _ => True) tenants w ∧
    (w.deliveredOf "q" "tenant").map Job.id = [1, 2, 3] ∧ ¬ w.WithinLimits "q" twoEach := by
  have hreturned := finishes_run 0 [tenantRuns 1, tenantRuns 2]
    (show GroupWorld.Run "q" twoEach (fun _ _ _ => True) tenants tenantsClaimed from tenantsClaimed_run) rfl trivial (by decide)
  have hclaimed := claimedToo_run hreturned rfl rfl
  have hcompleted : GroupWorld.Run "q" twoEach (fun _ _ _ => True) tenants tenantsCompleted :=
    hclaimed.tail (.exec (.completeJobs 2 "q" [4] none false none) _ (by decide) rfl)
  have hrun := finishes_run 1 [tenantRuns 3, tenantRuns 4] hcompleted rfl trivial (by decide)
  refine ⟨tenants_start, _, hrun, by decide, fun hlimits => ?_⟩
  obtain ⟨j, hj, hle⟩ := hlimits.delivered "tenant" (by decide)
  have hover : ∀ j ∈ (tenantsCompleted.finishes 1 [tenantRuns 3, tenantRuns 4]).deliveredOf "q" "tenant",
      twoEach.limitFor j.groupTier < 3 := by decide
  exact absurd hle (not_le.mpr (hover j hj))

/-- The theorem where two fetches race: the second counts four jobs, gives both of its own back and
returns none, and the first, which counts after that, returns two. -/
theorem groupConcurrency_holds_raced : ∃ w, GroupWorld.WithinLimits w "q" twoEach ∧
    (w.deliveredOf "q" "tenant").map Job.id = [1, 2] := by
  have hsecond := finishes_run 1 [tenantRuns 3, tenantRuns 4]
    (claimedToo_run tenantsClaimed_run rfl rfl) rfl
    (tenants_countsRight (by decide) (by decide)) (by decide)
  have hfirst := finishes_run 0 [tenantRuns 1, tenantRuns 2] hsecond rfl
    (tenants_countsRight (by decide) (by decide)) (by decide)
  exact ⟨_, GroupWorld.groupConcurrency_holds tenants_start hfirst, by decide⟩

end Tenant

end PgBoss
