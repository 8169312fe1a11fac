import PgBoss.Flow.Dependencies

/-!
# Runs of flows

A parent that a pass has locked stays a completed parent whose flag is set until that pass
resolves it, and no other pass holds it. So a resolver statement finds its parents as it
locked them, and as long as none misses a child every run keeps the counters. One that does
miss a child clears the flags of parents it did not take from the child's counter, and the
child waits for ever. A pass whose statements commit apart holds no parents: where it takes from
a counter the flags are still set, two such passes can take one parent twice, and the child
starts early.
-/

namespace PgBoss

open Relational Relation

variable {w w' : FlowWorld} {db db' : Database} {s : Statement} {p p' : Pass} {q q' : ApartPass} {a : FlowAction}

section Passes

/-- Other passes hold other parents. -/
theorem PassesInv.others (h : PassesInv w) (hp : p ∈ w.passes) :
    (∀ q ∈ w.passes.erase p, List.Disjoint p.parents q.parents) ∧
      (w.passes.erase p).Pairwise fun p q => List.Disjoint p.parents q.parents := by
  have hperm := (List.perm_cons_erase hp).pairwise_iff (R := fun p q : Pass => List.Disjoint p.parents q.parents)
    fun h => h.symm
  exact List.pairwise_cons.mp (hperm.mp h.disjoint)

/-- A pass goes on, with no parent that another pass holds. -/
theorem PassesInv.put (h : PassesInv w) (hp : p ∈ w.passes)
    (hlocked : ∀ k ∈ p'.parents, ∃ j ∈ w.db.jobs, j.jobKey = k ∧ j.blocking = true ∧ j.state = .completed)
    (hgroup : ∀ k ∈ p'.group, k ∈ p'.parents) (hown : ∀ k ∈ p'.parents, k ∈ p.parents ∨ k ∉ w.held) :
    PassesInv (w.put p p') := by
  obtain ⟨hothers, hpairwise⟩ := h.others hp
  have hmem : ∀ q ∈ w.passes.erase p, q ∈ w.passes := fun q hq => List.mem_of_mem_erase hq
  refine ⟨fun q hq => ?_, fun q hq => ?_, List.pairwise_cons.mpr ⟨fun q hq k hk hkq => ?_, hpairwise⟩⟩
  · rcases List.mem_cons.mp hq with rfl | hq
    · exact hlocked
    · exact h.locked q (hmem q hq)
  · rcases List.mem_cons.mp hq with rfl | hq
    · exact hgroup
    · exact h.group q (hmem q hq)
  · rcases hown k hk with hk | hk
    · exact hothers q hq hk hkq
    · exact hk (List.mem_flatMap.mpr ⟨q, hmem q hq, hkq⟩)

/-- The parents a pass selects are completed, blocking, and held by no other pass. -/
theorem selectBlockingParents_mem {names : List String} {locked : List JobKey} {k : JobKey}
    (h : k ∈ selectBlockingParents names locked db) :
    (∃ j ∈ db.jobs, j.jobKey = k ∧ j.blocking = true ∧ j.state = .completed) ∧ k ∉ locked := by
  have hmem := (List.perm_insertionSort keyBefore _).mem_iff.mp (List.mem_of_mem_take h)
  obtain ⟨j, hj, rfl⟩ := List.mem_map.mp hmem
  obtain ⟨hj, hsel⟩ := List.mem_filter.mp hj
  simp only [blockingParent, Bool.and_eq_true, decide_eq_true_eq] at hsel
  exact ⟨⟨j, hj, rfl, hsel.1.1.1, hsel.1.1.2⟩, hsel.2⟩

/-- Locked parents stay as they are where rows of blocking parents do. -/
theorem PassesInv.keep (h : PassesInv w) {passes : List Pass} {apart : List ApartPass}
    (hpasses : passes.map Pass.parents = w.passes.map Pass.parents) (hgroups : ∀ q ∈ passes, ∀ k ∈ q.group, k ∈ q.parents)
    (hkeep : ∀ j ∈ w.db.jobs, j.blocking = true → j.state = .completed →
      ∃ r ∈ db'.jobs, r.jobKey = j.jobKey ∧ r.blocking = true ∧ r.state = .completed) :
    PassesInv { db := db', passes, apart } := by
  refine ⟨fun q hq k hk => ?_, hgroups, ?_⟩
  · obtain ⟨q', hq', hsame⟩ := List.mem_map.mp (hpasses ▸ List.mem_map_of_mem (f := Pass.parents) hq)
    obtain ⟨j, hj, hkey, hblocking, hcompleted⟩ := h.locked q' hq' k (hsame ▸ hk)
    obtain ⟨r, hr, hrkey, hrest⟩ := hkeep j hj hblocking hcompleted
    exact ⟨r, hr, hrkey.trans hkey, hrest⟩
  · have hpairwise := h.disjoint
    rw [← List.pairwise_map (f := Pass.parents) (R := List.Disjoint), ← hpasses, List.pairwise_map] at hpairwise
    exact hpairwise

/-- What the passes in flight hold does not depend on those that hold nothing. -/
theorem PassesInv.withApart (h : PassesInv w) (apart : List ApartPass) : PassesInv { w with apart } :=
  ⟨h.locked, h.group, h.disjoint⟩

end Passes

/-- What holds of the passes whose statements commit apart: their parents are parents of a flow, and once
`decrementDependents` has run no flag of the queue's parents is set. -/
structure ApartInv (w : FlowWorld) : Prop where
  parents : ∀ q ∈ w.apart, ∀ k ∈ q.parents, k ∈ w.db.flowKeys
  group : ∀ q ∈ w.apart, ∀ k ∈ q.group, k ∈ q.parents
  cleared : ∀ q ∈ w.apart, q.decremented = true → ∀ k ∈ q.group, parentBlocks w.db k = false

section Apart

/-- Tables that keep the jobs of flows and set no flag keep what passes have found. -/
theorem ApartInv.keep (h : ApartInv w)
    (hapart : ∀ r ∈ w'.apart, ∃ q ∈ w.apart, r.parents = q.parents ∧ r.group = q.group ∧ r.decremented = q.decremented)
    (hkeep : ∀ k ∈ w.db.flowKeys, k ∈ w'.db.flowKeys ∧ (parentBlocks w.db k = false → parentBlocks w'.db k = false)) :
    ApartInv w' := by
  refine ⟨fun r hr k hk => ?_, fun r hr k hk => ?_, fun r hr hdone k hk => ?_⟩ <;>
    obtain ⟨q, hq, hparents, hgroup, hdecremented⟩ := hapart r hr
  · exact (hkeep k (h.parents q hq k (hparents ▸ hk))).1
  · exact hparents ▸ h.group q hq k (hgroup ▸ hk)
  · have hk : k ∈ q.group := hgroup ▸ hk
    exact (hkeep k (h.parents q hq k (h.group q hq k hk))).2 (h.cleared q hq (hdecremented ▸ hdone) k hk)

theorem ApartInv.withPasses (h : ApartInv w) (passes : List Pass) : ApartInv { w with passes } :=
  ⟨h.parents, h.group, h.cleared⟩

/-- A pass goes on. -/
theorem ApartInv.put (h : ApartInv w) (hparents : ∀ k ∈ q'.parents, k ∈ w.db.flowKeys)
    (hgroup : ∀ k ∈ q'.group, k ∈ q'.parents)
    (hcleared : q'.decremented = true → ∀ k ∈ q'.group, parentBlocks w.db k = false) : ApartInv (w.putApart q q') := by
  have hmem : ∀ r ∈ w.apart.erase q, r ∈ w.apart := fun r hr => List.mem_of_mem_erase hr
  exact ⟨List.forall_mem_cons.mpr ⟨hparents, fun r hr => h.parents r (hmem r hr)⟩,
    List.forall_mem_cons.mpr ⟨hgroup, fun r hr => h.group r (hmem r hr)⟩,
    List.forall_mem_cons.mpr ⟨hcleared, fun r hr => h.cleared r (hmem r hr)⟩⟩

/-- Parents none of whose children is blocked have no flag set. -/
theorem FlowInv.parents_cleared (h : FlowInv db) {group : List JobKey}
    (hnone : ∀ j ∈ db.jobs, lockedChild group [] db j = false) {k : JobKey} (hk : k ∈ group) :
    parentBlocks db k = false := by
  by_contra hblocks
  rw [Bool.not_eq_false, parentBlocks_iff] at hblocks
  obtain ⟨i, hi, rfl, hblocking⟩ := hblocks
  obtain ⟨d, hd, hparent⟩ := h.parent i hi hblocking
  obtain ⟨j, hj, hchild⟩ := h.present d.child (mem_flowKeys.mpr ⟨d, hd, .inl rfl⟩)
  have hblocks : parentBlocks db d.parent = true := parentBlocks_iff.mpr ⟨i, hi, hparent.symm, hblocking⟩
  have hopen : 0 < openParents db j.jobKey := List.countP_pos_iff.mpr ⟨d, hd, by simp [hchild, hblocks]⟩
  have hamong : 0 < parentsAmong group db j.jobKey := List.countP_pos_iff.mpr ⟨d, hd, by simp [hchild, hparent, hk]⟩
  have hfree := hnone j hj
  rw [lockedChild, h.blocked j hj, h.counted j hj] at hfree
  simp [hopen, hamong] at hfree

/-- `decrementDependents` writes nothing where no child is blocked. -/
theorem decrementDependents_none {now : Timestamp} {group missed : List JobKey} {ids : List Uuid} (hdb : db.Allowed)
    (hnone : ∀ j ∈ db.jobs, lockedChild group [] db j = false)
    (hrun : decrementDependents now group missed db = .ok (db', ids)) :
    db'.jobs = db.jobs ∧ db'.dependencies = db.dependencies ∧ db'.Allowed := by
  obtain ⟨hjobs, -, hdeps, -⟩ := Database.updateWhere_ok hrun
  refine ⟨?_, hdeps,
    Database.updateWhere_allowed (fun j => unblockSet now (parentsAmong group db j.jobKey) j) hdb (fun _ => ⟨rfl, rfl⟩) hrun⟩
  have hsame : ∀ j ∈ db.jobs, (if lockedChild group missed db j = true then
      unblockSet now (parentsAmong group db j.jobKey) j else j) = j := by
    intro j hj
    have hfree := hnone j hj
    rw [if_neg]
    simp_all [lockedChild]
  rw [hjobs, List.map_congr_left hsame, List.map_id']

/-- `clearBlocking` writes nothing where no flag is set. -/
theorem clearBlocking_none {group : List JobKey} {ids : List Uuid} (hdb : db.Allowed)
    (hnone : ∀ k ∈ group, parentBlocks db k = false) (hrun : clearBlocking group db = .ok (db', ids)) :
    db'.jobs = db.jobs ∧ db'.dependencies = db.dependencies ∧ db'.Allowed := by
  obtain ⟨hjobs, -, hdeps, -⟩ := Database.updateWhere_ok hrun
  refine ⟨?_, hdeps, Database.updateWhere_allowed clearSet hdb (fun _ => ⟨rfl, rfl⟩) hrun⟩
  have hsame : ∀ j ∈ db.jobs, (if decide (j.jobKey ∈ group) = true then clearSet j else j) = j := by
    intro j hj
    split
    · rename_i hmem
      have hflag : j.blocking = false := parentBlocks_eq hdb hj ▸ hnone _ (of_decide_eq_true hmem)
      rw [clearSet, ← hflag]
    · rfl
  rw [hjobs, List.map_congr_left hsame, List.map_id']

end Apart

/-- What a run keeps. -/
structure FlowWorld.Counted (w : FlowWorld) : Prop where
  flows : FlowInv w.db
  passes : PassesInv w
  apart : ApartInv w

section Actions

theorem FlowWorld.Counted.exec (h : w.Counted) (hord : s.ordinary = true) (hkeeps : KeepsFlows w.db s)
    (hexec : s.exec w.db = .ok db') (keys : List JobKey) :
    FlowWorld.Counted { db := db', passes := w.passes.map fun p => p.miss keys,
                        apart := w.apart.map fun q => q.miss keys } where
  flows := h.flows.exec hord hkeeps hexec
  passes := by
    refine h.passes.keep (by rw [List.map_map]; rfl) (fun q hq => ?_) fun j hj hblocking hcompleted => ?_
    · obtain ⟨p, hp, rfl⟩ := List.mem_map.mp hq
      exact h.passes.group p hp
    · obtain ⟨d, hd, hkey⟩ := h.flows.parent j hj hblocking
      obtain ⟨r, hr, hrkey, hsame, hdone⟩ := exec_keeps h.flows.allowed hord hkeeps hexec
        (mem_flowKeys.mpr ⟨d, hd, .inr hkey.symm⟩) hj rfl
      exact ⟨r, hr, hrkey, hsame.trans hblocking, hdone hcompleted⟩
  apart := by
    refine h.apart.keep (fun r hr => ?_) fun k hk => ⟨?_, fun hflag => ?_⟩
    · obtain ⟨q, hq, rfl⟩ := List.mem_map.mp hr
      exact ⟨q, hq, rfl, rfl, rfl⟩
    · rwa [Database.flowKeys, exec_dependencies h.flows.allowed hord hexec]
    · rwa [exec_parentBlocks h.flows.allowed hord hkeeps hexec hk]

theorem FlowWorld.Counted.flow (h : w.Counted) {now : Timestamp} {drawn : String → Uuid} {jobs : List FlowJob}
    (hflow : FlowJobs jobs) (hrun : PgBoss.flow now drawn jobs w.db = .ok db') : FlowWorld.Counted { w with db := db' } where
  flows := h.flows.flow hflow hrun
  passes := by
    refine h.passes.keep rfl h.passes.group fun j hj hblocking hcompleted => ⟨j, ?_, rfl, hblocking, hcompleted⟩
    cases hinsert : insertFlowQueues now drawn jobs (flowQueues jobs) w.db with
    | error e => simp [PgBoss.flow, hinsert, Except.map] at hrun
    | ok mid =>
      obtain rfl : insertDependencies (flowDependencies drawn jobs) mid = db' := by
        simpa [PgBoss.flow, hinsert, Except.map] using hrun
      exact (insertFlowQueues_inserted hinsert).old j hj
  apart := by
    refine h.apart.keep (fun q hq => ⟨q, hq, rfl, rfl, rfl⟩) fun k hk => ?_
    cases hinsert : insertFlowQueues now drawn jobs (flowQueues jobs) w.db with
    | error e => simp [PgBoss.flow, hinsert, Except.map] at hrun
    | ok mid =>
      obtain rfl : insertDependencies (flowDependencies drawn jobs) mid = db' := by
        simpa [PgBoss.flow, hinsert, Except.map] using hrun
      have hin := insertFlowQueues_inserted hinsert
      obtain ⟨d, hd, hkd⟩ := mem_flowKeys.mp hk
      obtain ⟨j, hj, rfl⟩ := h.flows.present k hk
      refine ⟨mem_flowKeys.mpr ⟨d, ?_, hkd⟩, fun hflag => ?_⟩
      · rw [h.flows.dependencies_flow hin hflow]
        exact List.mem_append_left _ hd
      · have hblocks : parentBlocks mid j.jobKey = j.blocking := parentBlocks_eq (hin.allowed h.flows.allowed) (hin.old j hj)
        rw [← hflag, parentBlocks_eq h.flows.allowed hj]
        exact hblocks

theorem FlowWorld.Counted.resolve (h : w.Counted) {now : Timestamp} {ids : List Uuid} (hp : p ∈ w.passes)
    (hmissed : ∀ k ∈ p.missed, parentsAmong p.group w.db k = 0)
    (hrun : resolveParents now p.group p.missed w.db = .ok (db', ids)) :
    FlowWorld.Counted (FlowWorld.put { w with db := db' } p
      { parents := p.parents.filter fun k => decide (k ∉ p.group) }) where
  flows := h.flows.resolve (fun k hk => h.passes.locked p hp k (h.passes.group p hp k hk)) hmissed hrun
  passes := by
    obtain ⟨hjobs, -, -⟩ := resolveParents_ok hrun
    obtain ⟨hothers, hpairwise⟩ := h.passes.others hp
    have hkeep : ∀ k ∉ p.group, (∃ j ∈ w.db.jobs, j.jobKey = k ∧ j.blocking = true ∧ j.state = .completed) →
        ∃ r ∈ db'.jobs, r.jobKey = k ∧ r.blocking = true ∧ r.state = .completed := by
      rintro k hk ⟨j, hj, rfl, hblocking, hcompleted⟩
      refine ⟨_, hjobs ▸ List.mem_map_of_mem hj, resolvedRow_jobKey, ?_, resolvedRow_state.trans hcompleted⟩
      rw [resolvedRow_blocking, hblocking, decide_eq_true hk]
      rfl
    refine ⟨fun q hq k hk => ?_, fun q hq => ?_, List.pairwise_cons.mpr ⟨fun q hq k hk => ?_, hpairwise⟩⟩
    · rcases List.mem_cons.mp hq with rfl | hq
      · obtain ⟨hk, hout⟩ := List.mem_filter.mp hk
        exact hkeep k (of_decide_eq_true hout) (h.passes.locked p hp k hk)
      · exact hkeep k (fun hgroup => hothers q hq (h.passes.group p hp k hgroup) hk)
          (h.passes.locked q (List.mem_of_mem_erase hq) k hk)
    · rcases List.mem_cons.mp hq with rfl | hq
      · simp
      · exact h.passes.group q (List.mem_of_mem_erase hq)
    · exact hothers q hq (List.mem_filter.mp hk).1
  apart := by
    obtain ⟨hjobs, hdeps, -⟩ := resolveParents_ok hrun
    refine h.apart.keep (fun q hq => ⟨q, hq, rfl, rfl, rfl⟩) fun k hk => ⟨?_, fun hflag => ?_⟩
    · rwa [FlowWorld.put, Database.flowKeys, hdeps]
    · rw [FlowWorld.put, parentBlocks_resolved hjobs, hflag, Bool.false_and]

/-- A statement that changes no job and no dependency keeps the counters. -/
theorem FlowWorld.Counted.same (h : w.Counted)
    (hsame : db'.jobs = w.db.jobs ∧ db'.dependencies = w.db.dependencies ∧ db'.Allowed) :
    FlowWorld.Counted { w with db := db' } := by
  obtain ⟨hjobs, hdeps, hallowed⟩ := hsame
  have hkeys : db'.flowKeys = w.db.flowKeys := by rw [Database.flowKeys, hdeps, Database.flowKeys]
  have hflag : ∀ k, parentBlocks db' k = parentBlocks w.db k := fun k => by rw [parentBlocks, hjobs, parentBlocks]
  have hopen := openParents_congr hdeps fun k _ => hflag k
  refine ⟨⟨hallowed, hdeps ▸ h.flows.nodup, ?_, ?_, hjobs ▸ h.flows.blocked, ?_, ?_⟩, ?_, ?_⟩
  · rw [hkeys, hjobs]
    exact h.flows.present
  · intro j hj
    rw [hopen]
    exact h.flows.counted j (hjobs ▸ hj)
  · rw [hjobs, hdeps]
    exact h.flows.parent
  · rw [hjobs, hdeps]
    exact h.flows.resolved
  · exact h.passes.keep rfl h.passes.group fun j hj hblocking hcompleted => ⟨j, hjobs ▸ hj, rfl, hblocking, hcompleted⟩
  · exact h.apart.keep (fun q hq => ⟨q, hq, rfl, rfl, rfl⟩) fun k hk => ⟨hkeys ▸ hk, fun hnone => (hflag k).trans hnone⟩

/-- Every lawful action that misses no child keeps the counters. -/
theorem FlowWorld.Counted.next (h : w.Counted) (hlawful : a.Lawful w) (hclear : a.Undisturbed w)
    (hnext : w.next a = some w') : w'.Counted := by
  cases a with
  | exec s =>
    simp only [FlowWorld.next] at hnext
    split at hnext
    · contradiction
    rename_i db hexec
    obtain rfl := Option.some.inj hnext
    exact h.exec hlawful.1 hlawful.2 hexec _
  | flow now drawn jobs =>
    simp only [FlowWorld.next] at hnext
    split at hnext
    · contradiction
    rename_i db hflow
    obtain rfl := Option.some.inj hnext
    exact h.flow hlawful hflow
  | start =>
    obtain rfl := Option.some.inj hnext
    refine ⟨h.flows, ⟨fun q hq => ?_, fun q hq => ?_, List.pairwise_cons.mpr ⟨by simp, h.passes.disjoint⟩⟩,
      ⟨h.apart.parents, h.apart.group, h.apart.cleared⟩⟩
    · rcases List.mem_cons.mp hq with rfl | hq
      · simp
      · exact h.passes.locked q hq
    · rcases List.mem_cons.mp hq with rfl | hq
      · simp
      · exact h.passes.group q hq
  | snapshot p =>
    obtain ⟨⟨hp, -⟩, hw⟩ := Option.ite_none_right_eq_some.mp hnext
    obtain rfl := Option.some.inj hw
    exact ⟨h.flows, h.passes.put hp (h.passes.locked p hp) (h.passes.group p hp) fun k hk => .inl hk,
      h.apart.withPasses _⟩
  | lock p names locked =>
    obtain ⟨⟨hp, hnone⟩, hw⟩ := Option.ite_none_right_eq_some.mp hnext
    obtain rfl := Option.some.inj hw
    refine ⟨h.flows, h.passes.put hp (fun k hk => (selectBlockingParents_mem hk).1) (fun k hk => ?_) fun k hk =>
      .inr fun hheld => (selectBlockingParents_mem hk).2 (List.mem_append_left _ hheld), h.apart.withPasses _⟩
    have hempty := h.passes.group p hp k hk
    simp [hnone] at hempty
  | take p group =>
    obtain ⟨⟨hp, -, hsub⟩, hw⟩ := Option.ite_none_right_eq_some.mp hnext
    obtain rfl := Option.some.inj hw
    exact ⟨h.flows, h.passes.put hp (h.passes.locked p hp) (fun k hk => hsub.mem hk) fun k hk => .inl hk,
      h.apart.withPasses _⟩
  | resolve now p =>
    obtain ⟨hp, hw⟩ := Option.ite_none_right_eq_some.mp hnext
    split at hw
    · contradiction
    rename_i db ids hresolve
    obtain rfl := Option.some.inj hw
    exact h.resolve hp hclear hresolve
  | release p =>
    obtain ⟨hp, hw⟩ := Option.ite_none_right_eq_some.mp hnext
    obtain rfl := Option.some.inj hw
    exact ⟨h.flows, ⟨fun q hq => h.passes.locked q (List.mem_of_mem_erase hq),
      fun q hq => h.passes.group q (List.mem_of_mem_erase hq), h.passes.disjoint.sublist List.erase_sublist⟩,
      h.apart.withPasses _⟩
  | select names locked =>
    obtain rfl := Option.some.inj hnext
    refine ⟨h.flows, h.passes.withApart _, List.forall_mem_cons.mpr ⟨fun k hk => ?_, h.apart.parents⟩,
      List.forall_mem_cons.mpr ⟨by simp, h.apart.group⟩, List.forall_mem_cons.mpr ⟨by simp, h.apart.cleared⟩⟩
    obtain ⟨⟨j, hj, hkey, hblocking, -⟩, -⟩ := selectBlockingParents_mem hk
    obtain ⟨d, hd, hparent⟩ := h.flows.parent j hj hblocking
    exact mem_flowKeys.mpr ⟨d, hd, .inr (hkey.symm.trans hparent.symm)⟩
  | begin q group =>
    obtain ⟨⟨hq, hnot, hsub⟩, hw⟩ := Option.ite_none_right_eq_some.mp hnext
    obtain rfl := Option.some.inj hw
    exact ⟨h.flows, h.passes.withApart _,
      h.apart.put (h.apart.parents q hq) (fun k hk => hsub.mem hk) fun hdone => by simp [hnot] at hdone⟩
  | decrement now q =>
    obtain ⟨⟨hq, -⟩, hw⟩ := Option.ite_none_right_eq_some.mp hnext
    split at hw
    · contradiction
    rename_i db ids hdecrement
    obtain rfl := Option.some.inj hw
    have hsame := h.same (decrementDependents_none h.flows.allowed hclear hdecrement)
    refine ⟨hsame.flows, hsame.passes.withApart _, hsame.apart.put (hsame.apart.parents q hq) (h.apart.group q hq)
      fun _ k hk => ?_⟩
    have hjobs := (decrementDependents_none h.flows.allowed hclear hdecrement).1
    exact (by rw [parentBlocks, hjobs, parentBlocks] : parentBlocks db k = parentBlocks w.db k).trans
      (h.flows.parents_cleared hclear hk)
  | clear q =>
    obtain ⟨⟨hq, hdone, -⟩, hw⟩ := Option.ite_none_right_eq_some.mp hnext
    split at hw
    · contradiction
    rename_i db ids hrun
    obtain rfl := Option.some.inj hw
    have hsame := h.same (clearBlocking_none h.flows.allowed (h.apart.cleared q hq hdone) hrun)
    exact ⟨hsame.flows, hsame.passes.withApart _, hsame.apart.put
      (fun k hk => hsame.apart.parents q hq k (List.mem_filter.mp hk).1) (by simp) (by simp)⟩
  | leave q =>
    obtain ⟨hq, hw⟩ := Option.ite_none_right_eq_some.mp hnext
    obtain rfl := Option.some.inj hw
    have hmem : ∀ r ∈ w.apart.erase q, r ∈ w.apart := fun r hr => List.mem_of_mem_erase hr
    exact ⟨h.flows, h.passes.withApart _, fun r hr => h.apart.parents r (hmem r hr),
      fun r hr => h.apart.group r (hmem r hr), fun r hr => h.apart.cleared r (hmem r hr)⟩

/-- The condition on a statement that commits apart is needed: where it takes from a job, that job's
counter is no longer the number of its parents whose flag is set. -/
theorem FlowWorld.Counted.taken (h : w.Counted) {now : Timestamp} {j : Job} (hj : j ∈ w.db.jobs)
    (hchild : lockedChild q.group q.missed w.db j = true) (hnext : w.next (.decrement now q) = some w') :
    ∃ r ∈ w'.db.jobs, r.jobKey = j.jobKey ∧ r.pendingDependencies < openParents w'.db r.jobKey := by
  obtain ⟨-, hw⟩ := Option.ite_none_right_eq_some.mp hnext
  split at hw
  · contradiction
  rename_i db ids hrun
  obtain rfl := Option.some.inj hw
  obtain ⟨hjobs, -, hdeps, -⟩ := Database.updateWhere_ok hrun
  have hflags : ∀ k, parentBlocks db k = parentBlocks w.db k := by
    intro k
    rw [parentBlocks, hjobs, List.any_map, parentBlocks]
    refine congrArg (w.db.jobs.any ·) (funext fun i => ?_)
    simp only [Function.comp_apply]
    split <;> rfl
  refine ⟨_, hjobs ▸ List.mem_map_of_mem hj, by rw [if_pos hchild]; rfl, ?_⟩
  have hopen := openParents_congr hdeps fun k _ => hflags k
  rw [if_pos hchild]
  change j.pendingDependencies - parentsAmong q.group w.db j.jobKey < openParents db j.jobKey
  simp only [lockedChild, Bool.and_eq_true, decide_eq_true_eq, h.flows.blocked j hj] at hchild
  rw [hopen, ← h.flows.counted j hj]
  omega

end Actions

section Manager

variable {now : Timestamp} {names queues : List String} {locked parents group : List JobKey} {passes : List Pass}
  {apart : List ApartPass}

/-- The runs of lawful actions that miss no child. -/
abbrev FlowWorld.CountedRun : FlowWorld → FlowWorld → Prop :=
  FlowWorld.Run fun w a => a.Lawful w ∧ a.Undisturbed w

/-- A pass locks its parents. -/
theorem lock_run (w : FlowWorld) (names : List String) (locked : List JobKey) : FlowWorld.CountedRun w
    { w with passes := { parents := selectBlockingParents names (w.held ++ locked) w.db } :: w.passes } := by
  have hheld : ({ w with passes := {} :: w.passes } : FlowWorld).held = w.held := by simp [FlowWorld.held]
  refine .head (.act .start ⟨trivial, trivial⟩ rfl) (.single (.act (.lock {} names locked) ⟨trivial, trivial⟩ ?_))
  simp [FlowWorld.next, FlowWorld.put, hheld]

/-- A statement of a pass resolves some of its parents. -/
theorem resolve_run {ids : List Uuid} (hsub : group.Sublist parents)
    (hresolve : resolveParents now group [] db = .ok (db', ids)) :
    FlowWorld.CountedRun { db, passes := { parents } :: passes, apart }
      { db := db', passes := { parents := parents.filter fun k => decide (k ∉ group) } :: passes, apart } := by
  have htake : FlowWorld.CountedRun { db, passes := { parents } :: passes, apart }
      { db, passes := { parents, group } :: passes, apart } :=
    .single (.act (.take { parents } group) ⟨trivial, trivial⟩ (by simp [FlowWorld.next, FlowWorld.put, hsub]))
  exact htake.tail (.act (.resolve now { parents, group }) ⟨trivial, by simp [FlowAction.Undisturbed]⟩
    (by simp [FlowWorld.next, FlowWorld.put, hresolve]))

theorem release_run (p : Pass) : FlowWorld.CountedRun { db, passes := p :: passes, apart } { db, passes, apart } :=
  .single (.act (.release p) ⟨trivial, trivial⟩ (by simp [FlowWorld.next]))

/-- What `resolveFlowJobs` writes when nothing comes between is a run of its pass. -/
theorem resolveFlowJobs_run {n : ℕ} (hrun : resolveFlowJobs now names (w.held ++ locked) [] w.db = .ok (db', n)) :
    FlowWorld.CountedRun w { w with db := db' } := by
  simp only [resolveFlowJobs] at hrun
  split at hrun
  · contradiction
  rename_i db ids hresolve
  obtain rfl : db = db' := (Prod.mk.inj (Except.ok.inj hrun)).1
  exact ((lock_run w names locked).trans (resolve_run (List.Sublist.refl _) hresolve)).trans (release_run _)

/-- The loop over the queues is a run where what it writes for one queue is. -/
theorem resolveQueues_run (may : FlowWorld → FlowAction → Prop) (world : Database → List JobKey → FlowWorld)
    (hnodup : queues.Nodup)
    (hqueue : ∀ {db db' held group ids}, group.Sublist held → (∀ k ∈ group, k ∈ parents) →
      resolveParents now group [] db = .ok (db', ids) →
      FlowWorld.Run may (world db held) (world db' (held.filter fun k => decide (k ∉ group))))
    (hsub : ∀ n ∈ queues, (parents.filter (·.1 = n)).Sublist group)
    (hrun : resolveQueues now parents (fun _ => []) queues db = .ok db') :
    ∃ left, FlowWorld.Run may (world db group) (world db' left) := by
  induction queues generalizing db group with
  | nil =>
    obtain rfl := Except.ok.inj hrun
    exact ⟨_, .refl⟩
  | cons name rest ih =>
    simp only [resolveQueues] at hrun
    split at hrun
    · contradiction
    rename_i mid ids hresolve
    obtain ⟨hout, hrest⟩ := List.nodup_cons.mp hnodup
    have hkept : ∀ n ∈ rest, (parents.filter (·.1 = n)).Sublist
        (group.filter fun k => decide (k ∉ parents.filter (·.1 = name))) := by
      intro n hn
      have hself : (parents.filter (·.1 = n)).filter (fun k => decide (k ∉ parents.filter (·.1 = name))) =
          parents.filter (·.1 = n) := by
        refine List.filter_eq_self.mpr fun k hk => decide_eq_true fun hname => hout ?_
        rw [← of_decide_eq_true (List.mem_filter.mp hname).2, of_decide_eq_true (List.mem_filter.mp hk).2]
        exact hn
      rw [← hself]
      exact (hsub n (List.mem_cons_of_mem _ hn)).filter _
    obtain ⟨left, hleft⟩ := ih hrest hkept hrun
    have hfirst := hqueue (hsub name List.mem_cons_self) (fun k hk => (List.mem_filter.mp hk).1) hresolve
    exact ⟨left, hfirst.trans hleft⟩

/-- The loop of `resolveFlowJobsDistributed` returned. -/
theorem resolveFlowJobsDistributed_ok {n : ℕ}
    (hrun : resolveFlowJobsDistributed now names locked (fun _ => []) db = .ok (db', n)) :
    resolveQueues now (selectBlockingParents names locked db) (fun _ => [])
      (parentQueues (selectBlockingParents names locked db)) db = .ok db' := by
  simp only [resolveFlowJobsDistributed] at hrun
  cases hloop : resolveQueues now (selectBlockingParents names locked db) (fun _ => [])
      (parentQueues (selectBlockingParents names locked db)) db with
  | error e => simp [hloop, Except.map] at hrun
  | ok mid =>
    rw [hloop] at hrun
    exact congrArg Except.ok (Prod.mk.inj (Except.ok.inj hrun)).1

/-- So is what `resolveFlowJobsDistributed` writes in a transaction. -/
theorem resolveFlowJobsDistributed_run {n : ℕ}
    (hrun : resolveFlowJobsDistributed now names (w.held ++ locked) (fun _ => []) w.db = .ok (db', n)) :
    FlowWorld.CountedRun w { w with db := db' } := by
  obtain ⟨left, hleft⟩ := resolveQueues_run (fun w a => a.Lawful w ∧ a.Undisturbed w)
    (fun db parents => { db, passes := { parents } :: w.passes, apart := w.apart })
    (List.nodup_reverse.mpr (List.nodup_dedup _)) (fun hsub _ hresolve => resolve_run hsub hresolve)
    (fun _ _ => List.filter_sublist) (resolveFlowJobsDistributed_ok hrun)
  exact ((lock_run w names locked).trans hleft).trans (release_run _)

/-- The statements of a queue, one by one. -/
theorem apart_run {ids : List Uuid} (hsub : group.Sublist parents) (hfree : ∀ k ∈ group, k ∉ w.held)
    (hresolve : resolveParents now group [] db = .ok (db', ids)) :
    FlowWorld.Run (fun w a => a.Lawful w) { db, passes := w.passes, apart := { parents } :: apart }
      { db := db', passes := w.passes, apart := { parents := parents.filter fun k => decide (k ∉ group) } :: apart } := by
  simp only [resolveParents] at hresolve
  split at hresolve
  · contradiction
  rename_i mid taken hdecrement
  have hfree : ∀ k ∈ group, k ∉ w.passes.flatMap Pass.parents := hfree
  have hbegin : FlowWorld.next { db, passes := w.passes, apart := { parents } :: apart } (.begin { parents } group) =
      some { db, passes := w.passes, apart := { parents, group } :: apart } := by
    simp [FlowWorld.next, FlowWorld.putApart, hsub]
  have hdecremented : FlowWorld.next { db, passes := w.passes, apart := { parents, group } :: apart }
      (.decrement now { parents, group }) =
        some { db := mid, passes := w.passes, apart := { parents, group, decremented := true } :: apart } := by
    simp [FlowWorld.next, FlowWorld.putApart, hdecrement]
  refine .head (.act (.begin { parents } group) trivial hbegin) (.head (.act (.decrement now { parents, group }) trivial hdecremented)
    (.single (.act (.clear { parents, group, decremented := true }) trivial ?_)))
  simp only [FlowWorld.next, FlowWorld.held, FlowWorld.putApart, hresolve]
  rw [if_pos ⟨List.mem_cons_self, trivial, hfree⟩]
  simp

/-- And what it writes statement by statement, when nothing comes between. -/
theorem resolveFlowJobsDistributed_apart {n : ℕ}
    (hrun : resolveFlowJobsDistributed now names (w.held ++ locked) (fun _ => []) w.db = .ok (db', n)) :
    FlowWorld.Run (fun w a => a.Lawful w) w { w with db := db' } := by
  have hfree : ∀ k ∈ selectBlockingParents names (w.held ++ locked) w.db, k ∉ w.held :=
    fun k hk hheld => (selectBlockingParents_mem hk).2 (List.mem_append_left _ hheld)
  obtain ⟨left, hleft⟩ := resolveQueues_run (fun w a => a.Lawful w)
    (fun db parents => { db, passes := w.passes, apart := { parents } :: w.apart })
    (List.nodup_reverse.mpr (List.nodup_dedup _))
    (fun hsub hfound hresolve => apart_run hsub (fun k hk => hfree k (hfound k hk)) hresolve)
    (fun _ _ => List.filter_sublist) (resolveFlowJobsDistributed_ok hrun)
  refine .head (.act (.select names locked) trivial rfl) (hleft.tail (.act (.leave { parents := left }) trivial ?_))
  simp [FlowWorld.next]

end Manager

/-- A parent that has completed and been resolved. -/
def ParentDone (db : Database) (d : Dependency) : Prop :=
  ∃ p ∈ db.jobs, p.jobKey = d.parent ∧ p.state = .completed ∧ p.blocking = false

/-- A parent whose flag is not set has completed. -/
theorem FlowInv.parentDone (h : FlowInv db) {d : Dependency} (hd : d ∈ db.dependencies) :
    ParentDone db d ↔ parentBlocks db d.parent = false := by
  obtain ⟨j, hj, hkey⟩ := h.present d.parent (mem_flowKeys.mpr ⟨d, hd, .inr rfl⟩)
  rw [← hkey, parentBlocks_eq h.allowed hj]
  constructor
  · rintro ⟨p, hp, hpkey, -, hblocking⟩
    rwa [← h.allowed.eq_of_jobKey hp hj (hpkey.trans hkey.symm)]
  · exact fun hblocking => ⟨j, hj, hkey, h.resolved d hd j hj hkey hblocking, hblocking⟩

/-- A job is unblocked exactly when all its parents are done. -/
theorem FlowInv.unblocked_iff (h : FlowInv db) {j : Job} (hj : j ∈ db.jobs) :
    j.blocked = false ↔ ∀ d ∈ db.dependencies, d.child = j.jobKey → ParentDone db d := by
  rw [h.blocked j hj, decide_eq_false_iff_not, Nat.not_lt, Nat.le_zero, h.counted j hj, openParents,
    List.countP_eq_zero]
  refine forall₂_congr fun d hd => ?_
  rw [h.parentDone hd]
  simp

section Miscounted

/-- Two jobs, the second waiting for the first. -/
def twoJobs : List FlowJob :=
  [{ ref := "a", name := "q", options := { id := some 1 } },
    { ref := "b", name := "q", options := { id := some 2 }, dependsOn := ["a"] }]

/-- The flow is sent and its first job completes. -/
def parentCompleted : List FlowAction :=
  [.exec (.createQueue { queueDefaults with name := "q" }), .flow 1 (fun _ => 0) twoJobs,
    .exec (.fetchNextJob 2 (fun _ => 0) [] { name := "q", policy := .standard }),
    .exec (.completeJobs 3 "q" [1] none false none)]

/-- A failure of the waiting job. -/
def failChild : FlowAction := .exec (.failJobs ⟨4, fun _ => 0, fun _ => 9, fun _ => none, false⟩ (.fail "q" [2] none))

/-- A pass that locks the first job and resolves it, with `between` coming between its snapshot and its
lock on the second. -/
def passAround (between : List FlowAction) (missed : List JobKey) : List FlowAction :=
  [.start, .lock {} ["q"] [], .take { parents := [("q", 1)] } [("q", 1)]] ++ between ++
    [.resolve 5 { parents := [("q", 1)], group := [("q", 1)], missed }, .release {}]

/-- A job that waits for two others. -/
def waitingForTwo : List FlowJob :=
  [{ ref := "a", name := "q", options := { id := some 1 } }, { ref := "b", name := "q", options := { id := some 2 } },
    { ref := "c", name := "q", options := { id := some 3 }, dependsOn := ["a", "b"] }]

/-- The flow is sent and the first of the two completes. -/
def oneCompleted : List FlowAction :=
  [.exec (.createQueue { queueDefaults with name := "q" }), .flow 1 (fun _ => 0) waitingForTwo,
    .exec (.fetchNextJob 2 (fun _ => 0) [] { name := "q", policy := .standard }),
    .exec (.completeJobs 3 "q" [1] none false none)]

/-- Two passes on a database of the application select the completed job and both take it from the
counter, before either clears its flag. Both clear it then, and a worker fetches. -/
def takenTwice : List FlowAction :=
  let selected : ApartPass := { parents := [("q", 1)] }
  let begun : ApartPass := { selected with group := [("q", 1)] }
  let decremented : ApartPass := { begun with decremented := true }
  [.select ["q"] [], .select ["q"] [], .begin selected [("q", 1)], .begin selected [("q", 1)], .decrement 4 begun,
    .decrement 5 begun, .clear decremented, .clear decremented, .leave { parents := [] }, .leave { parents := [] },
    .exec (.fetchNextJob 6 (fun _ => 0) [] { name := "q", policy := .standard, limit := 2 })]

end Miscounted

end PgBoss
