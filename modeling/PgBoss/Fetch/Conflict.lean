import PgBoss.Fetch.Selection
import PgBoss.Manager.Fetch

/-!
# When a fetch blocks itself

The claiming UPDATE turns the chosen rows active one after another, and a policy index can
refuse one because of a row the same statement claimed. The candidate filters keep out every
key whose slot a row of the table holds, and on a `key_strict_fifo` queue the heads keep out
a second row of a key. Under the singleton policies the batch is ranked by `singleton_key`,
which keeps a `NULL` key apart from an empty one, while `job_i2` and `job_i3` do not.
-/

namespace PgBoss

open Relational

variable {now : Timestamp} {rank : Job → ℕ} {locked : List JobKey} {o : FetchOptions} {db : Database}
  {a b : Job}

/-- The rows of a queue carry the policy given, or none, as dead letter copies do. -/
def Database.StampedFor (db : Database) (name : String) (policy : QueuePolicy) : Prop :=
  ∀ j ∈ db.jobs, j.name = name → j.policy = some policy ∨ j.policy = none

/-- A batch of a queue with one active job per key takes a row whose key is `NULL` together with
a row whose key is empty, both under the policy's index. -/
def MixedKeys (now : Timestamp) (rank : Job → ℕ) (locked : List JobKey) (o : FetchOptions) (db : Database) :
    Prop :=
  o.singletonPolicy = true ∧
    ∃ a ∈ db.jobs, fetchSelects now rank locked o db a = true ∧ a.policy = some o.policy ∧
      a.singletonKey = none ∧
      ∃ b ∈ db.jobs, fetchSelects now rank locked o db b = true ∧ b.policy = some o.policy ∧
        b.singletonKey = some ""

/-- Keys the indexes take for one, and the ranking for two, are `NULL` and the empty one. -/
theorem slotKey_eq (h : a.slotKey = b.slotKey) (hne : a.singletonKey ≠ b.singletonKey) :
    (a.singletonKey = none ∧ b.singletonKey = some "") ∨
      (b.singletonKey = none ∧ a.singletonKey = some "") := by
  simp only [Job.slotKey] at h
  cases ha : a.singletonKey <;> cases hb : b.singletonKey <;> simp_all

/-- A claimed row clashes with no row the table had. -/
theorem claimSet_clash_old (hdb : db.Allowed) (hstamp : db.StampedFor o.name o.policy) (ha : a ∈ db.jobs)
    (hchosen : a ∈ fetchChosen now rank locked o db) (hb : b ∈ db.jobs) (hne : b ≠ a) :
    clashes jobIndexes (claimSet now a) b = false := by
  obtain ⟨-, heligible, -⟩ := fetchChosen_mem hchosen
  obtain ⟨hname, hstate, -, -, hfifo, hprobe, -⟩ := fetchEligible_iff.mp heligible
  have hwait : a.state = .created ∨ a.state = .retry := (JobState.lt_active _).mp hstate
  have hstamped : ∀ {p : QueuePolicy}, a.policy = some p → o.policy = p := fun hp => by
    rcases hstamp a ha hname with h | h
    · exact Option.some.inj (h.symm.trans hp)
    · rw [h] at hp; contradiction
  have hprobed : ∀ {p : QueuePolicy}, a.policy = some p → p = .singleton ∨ p = .stately → b.policy = some p →
      b.state = .active → a.name = b.name → a.slotKey = b.slotKey → False := by
    intro p hap hp hbp hbs hn hk
    have hop := hstamped hap
    have hfalse := hprobe (by rcases hp with rfl | rfl <;> simp [FetchOptions.singletonPolicy, hop])
    have htrue : singletonProbe o db a = true :=
      List.any_eq_true.mpr ⟨b, hb, decide_eq_true ⟨hn.symm, hbs, hop ▸ hbp, hk.symm⟩⟩
    rw [hfalse] at htrue
    contradiction
  by_contra hclash
  have hclash : clashes jobIndexes (claimSet now a) b = true := by simpa using hclash
  have hold : ¬ clashes jobIndexes a b = true := fun h => hne (hdb.consistent.eq_of_clashes ha hb h).symm
  rcases jobs_clash_iff.mp hclash with h | h | h | h | h | h | h | h
  · exact hold (clashes_of_jobKey (primaryKey_clash.mp h))
  · exact absurd (jobI1_clash.mp h).1.1 (by simp)
  · obtain ⟨⟨-, hap⟩, ⟨hbs, hbp⟩, hn, hk⟩ := jobI2_clash.mp h
    exact hprobed hap (.inl rfl) hbp hbs hn hk
  · obtain ⟨⟨-, hap⟩, ⟨-, hbp⟩, hn, hs, hk⟩ := jobI3_clash.mp h
    exact hprobed hap (.inr rfl) hbp hs.symm hn hk
  · obtain ⟨-, hbs, hsome, hon, hn, hk⟩ := jobI4_clash.mp h
    refine hold (jobs_clash_iff.mpr (.inr (.inr (.inr (.inr (.inl (jobI4_clash.mpr
      ⟨?_, hbs, hsome, hon, hn, hk⟩)))))))
    rcases hwait with hs | hs <;> simp [hs]
  · obtain ⟨⟨-, hap⟩, hbs, hn, hk⟩ := jobI6_clash.mp h
    refine hold (jobs_clash_iff.mpr (.inr (.inr (.inr (.inr (.inr (.inl (jobI6_clash.mpr
      ⟨⟨?_, hap⟩, hbs, hn, hk⟩))))))))
    rcases hwait with hs | hs <;> simp [hs]
  · obtain ⟨⟨-, hap⟩, ⟨hbs, hbp⟩, hn, hsome, hk⟩ := jobI8_clash.mp h
    have hfalse := (hfifo (hstamped hap)).2
    have hid : b.id ≠ a.id := fun hid => hne (hdb.eq_of_jobKey hb ha (Prod.ext hn.symm hid))
    have htrue : strictFifoBlocked db a = true :=
      List.any_eq_true.mpr ⟨b, hb, decide_eq_true ⟨hn.symm, hk ▸ hsome, hk.symm, hbs, hbp, hid⟩⟩
    rw [hfalse] at htrue
    contradiction
  · exact absurd (jobI13_clash.mp h).1.1 (by simp)

/-- Two claimed rows clash only over a `NULL` and an empty key. -/
theorem claimSet_clash_new (hdb : db.Allowed) (hstamp : db.StampedFor o.name o.policy)
    (hmixed : ¬ MixedKeys now rank locked o db) (ha : a ∈ fetchChosen now rank locked o db)
    (hb : b ∈ fetchChosen now rank locked o db) (hne : b ≠ a) :
    clashes jobIndexes (claimSet now a) (claimSet now b) = false := by
  obtain ⟨hadb, heligible, -⟩ := fetchChosen_mem ha
  obtain ⟨hbdb, heligible', -⟩ := fetchChosen_mem hb
  obtain ⟨hname, hstate, -, -, hfifo, -, -⟩ := fetchEligible_iff.mp heligible
  obtain ⟨hname', hstate', -, -, hfifo', -, -⟩ := fetchEligible_iff.mp heligible'
  have hwait : ∀ {j : Job}, j.state < .active → j.state ≠ .cancelled ∧ j.state ≤ .active := by
    intro j hj
    rcases (JobState.lt_active _).mp hj with hs | hs <;> simp [hs]
  have hstamped : ∀ {p : QueuePolicy}, a.policy = some p → o.policy = p := fun hp => by
    rcases hstamp a hadb hname with h | h
    · exact Option.some.inj (h.symm.trans hp)
    · rw [h] at hp; contradiction
  have hranked : ∀ {p : QueuePolicy}, a.policy = some p → b.policy = some p → p = .singleton ∨ p = .stately →
      a.slotKey = b.slotKey → False := by
    intro p hap hbp hp hk
    have hop := hstamped hap
    have hpolicy : o.singletonPolicy = true := by
      rcases hp with rfl | rfl <;> simp [FetchOptions.singletonPolicy, hop]
    have hsa := (fetchSelects_iff hdb hadb).mpr ha
    have hsb := (fetchSelects_iff hdb hbdb).mpr hb
    by_cases hkey : a.singletonKey = b.singletonKey
    · exact hne (fetchChosen_singletonKey hpolicy ha hb hkey).symm
    · rcases slotKey_eq hk hkey with ⟨hnull, hempty⟩ | ⟨hnull, hempty⟩
      · exact hmixed ⟨hpolicy, a, hadb, hsa, hop ▸ hap, hnull, b, hbdb, hsb, hop ▸ hbp, hempty⟩
      · exact hmixed ⟨hpolicy, b, hbdb, hsb, hop ▸ hbp, hnull, a, hadb, hsa, hop ▸ hap, hempty⟩
  have hold : ¬ clashes jobIndexes a b = true := fun h => hne (hdb.consistent.eq_of_clashes hadb hbdb h).symm
  by_contra hclash
  have hclash : clashes jobIndexes (claimSet now a) (claimSet now b) = true := by simpa using hclash
  rcases jobs_clash_iff.mp hclash with h | h | h | h | h | h | h | h
  · exact hold (clashes_of_jobKey (primaryKey_clash.mp h))
  · exact absurd (jobI1_clash.mp h).1.1 (by simp)
  · obtain ⟨⟨-, hap⟩, ⟨-, hbp⟩, -, hk⟩ := jobI2_clash.mp h
    exact hranked hap hbp (.inl rfl) hk
  · obtain ⟨⟨-, hap⟩, ⟨-, hbp⟩, -, -, hk⟩ := jobI3_clash.mp h
    exact hranked hap hbp (.inr rfl) hk
  · obtain ⟨-, -, hsome, hon, hn, hk⟩ := jobI4_clash.mp h
    exact hold (jobs_clash_iff.mpr (.inr (.inr (.inr (.inr (.inl (jobI4_clash.mpr
      ⟨(hwait hstate).1, (hwait hstate').1, hsome, hon, hn, hk⟩)))))))
  · obtain ⟨⟨-, hap⟩, ⟨-, hbp⟩, hn, hk⟩ := jobI6_clash.mp h
    exact hold (jobs_clash_iff.mpr (.inr (.inr (.inr (.inr (.inr (.inl (jobI6_clash.mpr
      ⟨⟨(hwait hstate).2, hap⟩, ⟨(hwait hstate').2, hbp⟩, hn, hk⟩))))))))
  · obtain ⟨⟨-, hap⟩, -, -, -, hk⟩ := jobI8_clash.mp h
    have hop := hstamped hap
    exact hne (strictFifoHeads_unique hdb (strictFifoHeads_of_id hdb hadb hname (hfifo hop).1)
      (strictFifoHeads_of_id hdb hbdb hname' (hfifo' hop).1) hk).symm
  · exact absurd (jobI13_clash.mp h).1.1 (by simp)

/-- The rows a fetch with mixed keys claims hold one slot of `job_i2` or `job_i3`. -/
theorem mixedKeys_raises (hdb : db.Allowed) (hmixed : MixedKeys now rank locked o db) {db' : Database}
    {claimed : List Job} : fetchNextJob now rank locked o db ≠ .ok (db', claimed) := by
  obtain ⟨hpolicy, a, ha, hsa, hap, hnull, b, hb, hsb, hbp, hempty⟩ := hmixed
  intro hrun
  have hset : ∀ {j : Job}, j ∈ db.jobs → fetchSelects now rank locked o db j = true →
      claimSet now j ∈ db'.jobs ∧ j.name = o.name := by
    intro j hj hs
    rw [(fetchNextJob_ok hrun).1]
    have hchosen := fetchChosen_mem ((fetchSelects_iff hdb hj).mp hs)
    exact ⟨List.mem_map.mpr ⟨j, hj, by simp [hs]⟩, (fetchEligible_iff.mp hchosen.2.1).1⟩
  obtain ⟨hca, hname⟩ := hset ha hsa
  obtain ⟨hcb, hname'⟩ := hset hb hsb
  have hslot : a.slotKey = b.slotKey := by simp [Job.slotKey, hnull, hempty]
  have hclash : clashes jobIndexes (claimSet now a) (claimSet now b) = true := by
    simp only [FetchOptions.singletonPolicy, Bool.or_eq_true, decide_eq_true_eq] at hpolicy
    rcases hpolicy with hp | hp
    · exact jobs_clash_iff.mpr (.inr (.inr (.inl (jobI2_clash.mpr
        ⟨⟨rfl, hp ▸ hap⟩, ⟨rfl, hp ▸ hbp⟩, hname.trans hname'.symm, hslot⟩))))
    · exact jobs_clash_iff.mpr (.inr (.inr (.inr (.inl (jobI3_clash.mpr
        ⟨⟨by simp, hp ▸ hap⟩, ⟨by simp, hp ▸ hbp⟩, hname.trans hname'.symm, rfl, hslot⟩)))))
  have heq := (fetchNextJob_allowed hdb hrun).consistent.eq_of_clashes hca hcb hclash
  have hkey := congrArg Job.singletonKey heq
  simp [hnull, hempty] at hkey

/-- The fetch reports the rows it chose, claimed. -/
def FetchClaims (now : Timestamp) (rank : Job → ℕ) (o : FetchOptions) (db : Database) : Prop :=
  ∃ db', fetchNextJob now rank [] o db =
      .ok (db', (db.jobs.filter (fetchSelects now rank [] o db)).map (claimSet now)) ∧
    fetchClaim now rank [] o db =
      .ok (db', (db.jobs.filter (fetchSelects now rank [] o db)).map (claimSet now))

/-- A fetch that runs alone claims what it chose, and so never blocks itself, exactly when its
batch does not mix a `NULL` and an empty key under a singleton policy. -/
theorem fetch_claims_iff (now : Timestamp) (rank : Job → ℕ) (o : FetchOptions) (db : Database)
    (hdb : db.Allowed) (hstamp : db.StampedFor o.name o.policy) :
    FetchClaims now rank o db ↔ ¬ MixedKeys now rank [] o db := by
  refine ⟨fun ⟨db', hrun, _⟩ hmixed => mixedKeys_raises hdb hmixed hrun, fun hmixed => ?_⟩
  have hchosen : ∀ j ∈ db.jobs, fetchSelects now rank [] o db j = true → j ∈ fetchChosen now rank [] o db :=
    fun j hj hs => (fetchSelects_iff hdb hj).mp hs
  obtain ⟨db', ids, hupdate⟩ := Database.updateWhere_total (claimSet now)
    (fun a ha hs b hb hne => claimSet_clash_old hdb hstamp ha (hchosen a ha hs) hb hne)
    (fun a ha hs b hb hs' hne =>
      claimSet_clash_new hdb hstamp hmixed (hchosen a ha hs) (hchosen b hb hs') hne)
    (hdb.consistent.nodup clashes_self)
  have hrun : fetchNextJob now rank [] o db =
      .ok (db', (db.jobs.filter (fetchSelects now rank [] o db)).map (claimSet now)) := by
    rw [fetchNextJob, hupdate]
  exact ⟨db', hrun, by rw [fetchClaim, hrun]⟩

section NullAndEmpty

/-- A waiting job of a singleton queue. -/
def singletonJob (id : Uuid) (key : Option String) : Job where
  id := id
  name := "q"
  singletonKey := key
  startAfter := 0
  createdOn := 0
  keepUntil := 0
  policy := some .singleton

/-- A fetch of the queue. -/
def singletonBatch (limit : ℕ) : FetchOptions := { name := "q", policy := .singleton, limit := limit }

/-- One job has no key and one the empty key; nothing is active. -/
def nullAndEmpty : Database := { jobs := [singletonJob 1 none, singletonJob 2 (some "")] }

/-- A batch of two reports nothing and claims nothing, every time, though a fetch of one job
claims one. -/
theorem nullAndEmpty_blocks : nullAndEmpty.Allowed ∧ nullAndEmpty.StampedFor "q" .singleton ∧
    fetchNextJob 1 (fun _ => 0) [] (singletonBatch 2) nullAndEmpty = .error .uniqueViolation ∧
    fetchClaim 1 (fun _ => 0) [] (singletonBatch 2) nullAndEmpty = .ok (nullAndEmpty, []) ∧
    ¬ FetchClaims 1 (fun _ => 0) (singletonBatch 2) nullAndEmpty ∧
    ∃ db', fetchClaim 1 (fun _ => 0) [] (singletonBatch 1) nullAndEmpty =
      .ok (db', [claimSet 1 (singletonJob 1 none)]) := by
  have hraise : fetchNextJob 1 (fun _ => 0) [] (singletonBatch 2) nullAndEmpty = .error .uniqueViolation := rfl
  refine ⟨⟨by decide, by decide⟩, by unfold Database.StampedFor; decide, hraise, rfl, ?_, _, rfl⟩
  rintro ⟨db', hrun, -⟩
  rw [hraise] at hrun
  contradiction

/-- The theorem at two batches of the queue: one job is claimed, both are not. -/
theorem fetch_claims_iff_singleton : FetchClaims 1 (fun _ => 0) (singletonBatch 1) nullAndEmpty ∧
    ¬ FetchClaims 1 (fun _ => 0) (singletonBatch 2) nullAndEmpty := by
  refine ⟨(fetch_claims_iff _ _ _ _ ⟨by decide, by decide⟩ (by unfold Database.StampedFor; decide)).mpr ?_, ?_⟩
  · unfold MixedKeys; decide
  · rw [fetch_claims_iff _ _ _ _ ⟨by decide, by decide⟩ (by unfold Database.StampedFor; decide), not_not]
    unfold MixedKeys; decide

end NullAndEmpty

end PgBoss
