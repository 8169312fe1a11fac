import PgBoss.Monitor.TrueUpOnce

/-!
# The check and the fix

The monitor's check sums over all windows what the fix compares window by window. Both rest on one
anchor and one set of windows, written in two shapes. Where the recount exceeds the sum, it exceeds
what some window holds; and after the run no window holds less than its recount.
-/

namespace PgBoss

variable {now : ℤ} {rank : StatsKey → ℕ} {queues : List Queue} {names : List String} {rows : List StatsRow}
  {q : Queue} {jobs : List Job}

/-- `CASE` inside an aggregate selects what `FILTER` beside it does. -/
theorem filterMap_ite_some {α β : Type*} (p : α → Bool) (f : α → β) (l : List α) :
    (l.filterMap fun a => if p a then some (f a) else none) = (l.filter p).map f := by
  induction l with
  | nil => rfl
  | cons a l ih => by_cases ha : p a <;> simp [ha, ih]

/-- The snapshots in reach of one queue, as the windows read them and as the laterals look them up. -/
theorem reachedRows_filter (now : ℤ) (rows : List StatsRow) (hq : (queues.find? fun p => p.name = q.name) = some q)
    (hname : q.name ∈ names) :
    ((reachedRows now queues names rows).filter fun y => y.queue.name = q.name) =
      (settledReach now q rows).map fun s => ⟨s.1, s.2, q⟩ := by
  rw [reachedRows, settledReach, List.filter_filterMap, List.map_filterMap]
  refine List.filterMap_congr fun s _ => ?_
  by_cases hs : s.name = q.name
  · rw [if_pos hs, if_pos (hs ▸ hname), hs, hq]
    cases trueUpReach now s <;> simp
  · rw [if_neg hs]
    split
    · cases hfind : queues.find? fun p => p.name = s.name with
      | none => rfl
      | some p =>
        have hp : p.name = s.name := by simpa using List.find?_some hfind
        cases trueUpReach now s with
        | none => rfl
        | some d => simp [hp, hs]
    · rfl

/-- The two shapes of the anchor agree. -/
theorem partitionAnchor_eq_settledAnchor :
    partitionAnchor now ((settledReach now q rows).map fun s => ⟨s.1, s.2, q⟩) = settledAnchor now q rows := by
  simp only [partitionAnchor, settledAnchor, List.filterMap_map, List.map_map, ← filterMap_ite_some]
  rfl

/-- `trueUpWindows` lists, for a queue asked for, the snapshots that `trueUpSettled` looks up, with its anchor. -/
theorem trueUpWindows_filter (now : ℤ) (rows : List StatsRow) (hq : (queues.find? fun p => p.name = q.name) = some q)
    (hname : q.name ∈ names) :
    ((trueUpWindows now queues names rows).filter fun w => w.name = q.name) =
      (settledReach now q rows).map fun s => ⟨s.1, q.name, s.2, settledAnchor now q rows⟩ := by
  have hreached := reachedRows_filter now rows hq hname
  calc ((trueUpWindows now queues names rows).filter fun w => w.name = q.name)
      = ((reachedRows now queues names rows).filter fun y => y.queue.name = q.name).map fun x =>
          (⟨x.key, x.queue.name, x.delta, partitionAnchor now
            ((reachedRows now queues names rows).filter fun y => y.queue.name = x.queue.name)⟩ : TrueUpRow) := by
        rw [trueUpWindows, List.filter_map]
        rfl
    _ = (settledReach now q rows).map fun s => ⟨s.1, q.name, s.2, settledAnchor now q rows⟩ := by
        rw [hreached, List.map_map]
        refine List.map_congr_left fun s _ => ?_
        simp only [Function.comp, hreached, partitionAnchor_eq_settledAnchor]

/-- The windows that the fix revises are those that the check sums over. -/
theorem trueUpWin_perm (now : ℤ) (rank : StatsKey → ℕ) (rows : List StatsRow)
    (hq : (queues.find? fun p => p.name = q.name) = some q) (hname : q.name ∈ names) :
    ((trueUpWin now rank queues names rows q.name).map fun w => (w.key, w.delta)).Perm (settledWindows now q rows) := by
  have hunsorted : ((trueUpWindows now queues names rows).filterMap fun w =>
      if w.name = q.name then
        w.h.bind fun h => if w.delta.deltaOn > h then some (⟨w.key, w.delta, h⟩ : TrueUpWindow) else none
      else none) = ((trueUpWindows now queues names rows).filter fun w => w.name = q.name).filterMap fun w =>
        w.h.bind fun h => if w.delta.deltaOn > h then some (⟨w.key, w.delta, h⟩ : TrueUpWindow) else none := by
    rw [List.filterMap_filter]
    refine List.filterMap_congr fun w _ => ?_
    by_cases hw : w.name = q.name <;> simp [hw]
  refine ((List.perm_insertionSort _ _).map _).trans (List.Perm.of_eq ?_)
  rw [hunsorted, trueUpWindows_filter now rows hq hname, List.filterMap_map, List.map_filterMap, settledWindows]
  cases settledAnchor now q rows with
  | none => simp
  | some h =>
    have hkeep : ∀ s : StatsKey × RecordedDelta, Option.map (fun w : TrueUpWindow => (w.key, w.delta))
        (if s.2.deltaOn > h then some ⟨s.1, s.2, h⟩ else none) = if decide (h < s.2.deltaOn) then some s else none := by
      intro s
      by_cases hs : h < s.2.deltaOn <;> simp [hs]
    simp only [Function.comp, Option.bind_some, Option.any_some, hkeep]
    rw [filterMap_ite_some (fun s : StatsKey × RecordedDelta => decide (h < s.2.deltaOn)) fun s => s]
    exact List.map_id _

/-- The bins of a stamp hold between them what lies between the first threshold and the last. -/
theorem sum_bins {t : List ℤ} (hsorted : t.Pairwise (· ≤ ·)) {n : ℕ} (hn : t.length = n + 1) (p : Job → Bool)
    (stamp : Job → Option ℤ) (jobs : List Job) :
    ((List.range n).map fun i => (jobs.filter fun j => p j && (stamp j).any fun x =>
      t.head?.any (fun h => decide (x ≥ h)) && decide (Tiling.bucket t x = i + 1)).length).sum =
        (jobs.filter fun j => p j && inWindow (some t[0]) t[n] (stamp j)).length := by
  have hhead : t.head? = some t[0] := by rw [List.head?_eq_getElem?, List.getElem?_eq_getElem]
  have hpos := fun x => Tiling.bucket_pos_iff (x := x) hsorted (by omega)
  let place : Job → ℕ := fun j => if p j then (stamp j).elim 0 (Tiling.bucket t) else 0
  have hbin : ∀ i, (jobs.filter fun j => p j && (stamp j).any fun x => t.head?.any (fun h => decide (x ≥ h)) &&
      decide (Tiling.bucket t x = i + 1)).length = jobs.countP (place · = i + 1) := by
    intro i
    rw [List.countP_eq_length_filter]
    congr 1
    refine List.filter_congr fun j _ => ?_
    by_cases hp : p j
    · cases hstamp : stamp j with
      | none => simp [place, hstamp]
      | some x =>
        have hreached : Tiling.bucket t x = i + 1 → t[0] ≤ x := fun h => (hpos x).mp (by omega)
        simpa [place, hp, hstamp, hhead] using hreached
    · simp [place, hp]
  simp only [hbin]
  rw [Tiling.sum_count_buckets, List.countP_eq_length_filter]
  congr 1
  refine List.filter_congr fun j _ => ?_
  by_cases hp : p j
  · cases hstamp : stamp j with
    | none => simp [place, hstamp, inWindow]
    | some x =>
      have hbetween := Tiling.bucket_between_iff (x := x) hsorted hn
      rw [Bool.eq_iff_iff]
      simpa [place, hp, hstamp, inWindow] using hbetween
  · simp [place, hp]

/-- What finished is what completed and what failed. -/
theorem length_finished (name : String) (h : Option ℤ) (top : ℤ) (jobs : List Job) :
    (jobs.filter fun j => decide (j.name = name) && j.state.isFinished && inWindow h top j.completedOn).length =
      (finishedIn name .completed h top jobs).length + (finishedIn name .failed h top jobs).length := by
  rw [List.length_eq_length_filter_add fun j => decide (j.state = .completed), List.filter_filter, List.filter_filter]
  congr 2
  · refine List.filter_congr fun j _ => ?_
    cases j.state <;> simp [JobState.isFinished]
  · refine List.filter_congr fun j _ => ?_
    cases j.state <;> simp [JobState.isFinished]

/-- The check recounts what the bins hold between them. -/
theorem trueUpRecount_eq {t : List ℤ} (hsorted : t.Pairwise (· ≤ ·)) {n : ℕ} (hn : t.length = n + 1) (name : String)
    (jobs : List Job) : trueUpRecount name (some t[0]) (some t[n]) jobs =
      ((List.range n).map fun i => (binCount t name (i + 1) jobs).total).sum := by
  have hcreated := sum_bins hsorted hn (fun j => decide (j.name = name)) (fun j => some j.createdOn) jobs
  have hfinished := fun state => sum_bins hsorted hn (fun j => decide (j.name = name) && decide (j.state = state))
    Job.completedOn jobs
  have htotal : ∀ i, (binCount t name (i + 1) jobs).total = (createdBin t name (i + 1) jobs).length +
      (finishedBin t name .completed (i + 1) jobs).length + (finishedBin t name .failed (i + 1) jobs).length :=
    fun _ => rfl
  simp only [Option.any_some, ← Bool.and_assoc] at hcreated
  simp only [htotal, List.sum_map_add, trueUpRecount, Option.elim_some, length_finished]
  simp only [createdBin, finishedBin, hcreated, hfinished, createdIn, finishedIn, Nat.add_assoc]

/-- The anchor of the windows is the one that the check looks up. -/
theorem trueUpH_eq_settledAnchor (hq : (queues.find? fun p => p.name = q.name) = some q) (hname : q.name ∈ names) :
    trueUpH now queues names rows q.name = settledAnchor now q rows := by
  rw [trueUpH, reachedRows_filter now rows hq hname, partitionAnchor_eq_settledAnchor]

/-- The first threshold is the anchor. -/
theorem settledAnchor_eq (rank : StatsKey → ℕ) (hq : (queues.find? fun p => p.name = q.name) = some q)
    (hname : q.name ∈ names)
    (ht : 0 < (trueUpThresholds (trueUpWin now rank queues names rows q.name)).length) :
    settledAnchor now q rows = some (trueUpThresholds (trueUpWin now rank queues names rows q.name))[0] := by
  rw [← trueUpH_eq_settledAnchor hq hname]
  have hanchor := fun w (hw : w ∈ trueUpWin now rank queues names rows q.name) => (of_mem_trueUpWin hw).2.1
  revert ht hanchor
  generalize trueUpWin now rank queues names rows q.name = win
  intro ht hanchor
  cases win with
  | nil => cases ht
  | cons w win => exact hanchor w List.mem_cons_self

/-- The last threshold is the newest end. -/
theorem settledTop_eq (rank : StatsKey → ℕ) (hq : (queues.find? fun p => p.name = q.name) = some q)
    (hname : q.name ∈ names) {n : ℕ}
    (hlength : (trueUpWin now rank queues names rows q.name).length = n + 1)
    (ht : n + 1 < (trueUpThresholds (trueUpWin now rank queues names rows q.name)).length) :
    settledTop now q rows = some (trueUpThresholds (trueUpWin now rank queues names rows q.name))[n + 1] := by
  have hperm := trueUpWin_perm now rank rows hq hname
  have hends : ∀ a, a ∈ (settledWindows now q rows).map (fun s => s.2.deltaOn) ↔
      ∃ w ∈ trueUpWin now rank queues names rows q.name, w.delta.deltaOn = a := by
    intro a
    rw [← (hperm.map fun s : StatsKey × RecordedDelta => s.2.deltaOn).mem_iff, List.map_map, List.mem_map]
    rfl
  rw [settledTop, List.max?_eq_some_iff]
  constructor
  · rw [hends, trueUpThresholds_getElem_succ (by omega)]
    exact ⟨_, List.getElem_mem _, rfl⟩
  · intro a ha
    obtain ⟨w, hw, rfl⟩ := (hends a).mp ha
    obtain ⟨k, hk, rfl⟩ := List.getElem_of_mem hw
    rw [← trueUpThresholds_getElem_succ hk (by omega)]
    rcases Nat.lt_or_eq_of_le (Nat.succ_le_of_lt hk) with hlt | heq
    · exact List.pairwise_iff_getElem.mp trueUpThresholds_sorted _ _ _ _ (by omega)
    · obtain rfl : k = n := by omega
      exact le_rfl

/-- The windows hold between them what the check has summed. -/
theorem settledSum_eq (rank : StatsKey → ℕ) (hq : (queues.find? fun p => p.name = q.name) = some q)
    (hname : q.name ∈ names) {settled : ℕ}
    (hsettled : settledSum now q rows = some settled) :
    trueUpWin now rank queues names rows q.name ≠ [] ∧
      settled = ((trueUpWin now rank queues names rows q.name).map fun w => w.delta.total).sum := by
  have hperm := trueUpWin_perm now rank rows hq hname
  rw [settledSum] at hsettled
  split at hsettled
  case h_1 => cases hsettled
  case h_2 windows hne =>
    refine ⟨fun hnil => hne ?_, ?_⟩
    · rw [hnil] at hperm
      exact hperm.symm.eq_nil
    · rw [← Option.some.inj hsettled, ← (hperm.map fun s : StatsKey × RecordedDelta => s.2.total).sum_eq, List.map_map]
      rfl

/-- A flagged queue has a window that holds less than its recount. -/
theorem exists_lt_of_trueUpFlag (rank : StatsKey → ℕ) (hq : (queues.find? fun p => p.name = q.name) = some q)
    (hname : q.name ∈ names)
    (hflag : trueUpFlag now q jobs rows = true) :
    ∃ (i : ℕ) (hi : i < (trueUpWin now rank queues names rows q.name).length),
      (trueUpWin now rank queues names rows q.name)[i].delta.total <
        (binCount (trueUpThresholds (trueUpWin now rank queues names rows q.name)) q.name (i + 1) jobs).total := by
  obtain ⟨settled, hsettled, hlt⟩ := (Option.any_eq_true _ _).mp hflag
  obtain ⟨hne, rfl⟩ := settledSum_eq rank hq hname hsettled
  obtain ⟨n, hn⟩ := Nat.exists_eq_succ_of_ne_zero (List.length_pos_iff.mpr hne).ne'
  have hlength := trueUpThresholds_length hne
  have hsum : ((trueUpWin now rank queues names rows q.name).map fun w => w.delta.total).sum =
      ((List.range (trueUpWin now rank queues names rows q.name).length).map fun i =>
        ((trueUpWin now rank queues names rows q.name)[i]?).elim 0 fun w => w.delta.total).sum := by
    congr 1
    refine List.ext_getElem (by simp) fun i hi _ => ?_
    have hi' : i < (trueUpWin now rank queues names rows q.name).length := by simpa using hi
    simp [List.getElem?_eq_getElem hi']
  rw [settledAnchor_eq rank hq hname (by omega), settledTop_eq rank hq hname hn (by omega),
    trueUpRecount_eq trueUpThresholds_sorted (by omega), decide_eq_true_eq, hsum, hn] at hlt
  obtain ⟨i, hi, hlt⟩ := List.exists_lt_of_sum_lt _ _ hlt
  have hi : i < (trueUpWin now rank queues names rows q.name).length := by
    rw [hn]
    exact List.mem_range.mp hi
  rw [List.getElem?_eq_getElem hi, Option.elim_some] at hlt
  exact ⟨i, hi, hlt⟩

/-- Selecting rows, each kept under its own key, keeps the keys apart. -/
theorem nodup_filterMap_key {α β κ : Type*} {f : α → Option β} {key : α → κ} {key' : β → κ} {l : List α}
    (h : (l.map key).Nodup) (hf : ∀ a b, f a = some b → key' b = key a) :
    ((l.filterMap f).map key').Nodup := by
  have hsublist : ((l.filterMap f).map key').Sublist (l.map key) := by
    clear h
    induction l with
    | nil => exact .slnil
    | cons a l ih =>
      rw [List.map_cons]
      cases ha : f a with
      | none =>
        rw [List.filterMap_cons_none ha]
        exact ih.cons _
      | some b =>
        rw [List.filterMap_cons_some ha, List.map_cons, hf a b ha]
        exact ih.cons_cons _
  exact h.sublist hsublist

/-- A snapshot has one window at most. -/
theorem trueUpWin_keys_nodup (hkeys : (rows.map StatsRow.key).Nodup)
    (hq : (queues.find? fun p => p.name = q.name) = some q) (hname : q.name ∈ names) :
    ((trueUpWin now rank queues names rows q.name).map TrueUpWindow.key).Nodup := by
  have hperm := (trueUpWin_perm now rank rows hq hname).map Prod.fst
  rw [List.map_map] at hperm
  refine hperm.nodup_iff.mpr ?_
  refine List.Nodup.sublist (List.filter_sublist.map Prod.fst) ?_
  refine nodup_filterMap_key hkeys fun s x hx => ?_
  split at hx
  · obtain ⟨d, -, rfl⟩ := Option.map_eq_some_iff.mp hx
    rfl
  · cases hx

/-- The fix raises a window that holds less than its recount. -/
theorem raisedRow_of_lt (hkeys : (rows.map StatsRow.key).Nodup)
    (hq : (queues.find? fun p => p.name = q.name) = some q) (hname : q.name ∈ names) {i : ℕ}
    (hi : i < (trueUpWin now rank queues names rows q.name).length)
    (hlt : (trueUpWin now rank queues names rows q.name)[i].delta.total <
      (binCount (trueUpThresholds (trueUpWin now rank queues names rows q.name)) q.name (i + 1) jobs).total) :
    ∃ s ∈ rows, ∃ d d', s.name = q.name ∧ s.delta = some d ∧
      raisedRow (trueUpWin now rank queues names rows s.name) jobs s = { s with delta := some d' } ∧
      (d.createdDelta < d'.createdDelta ∨ d.completedDelta < d'.completedDelta ∨ d.failedDelta < d'.failedDelta) := by
  obtain ⟨⟨s, hs, hsname, hkey, hdelta⟩, -⟩ := of_mem_trueUpWin (List.getElem_mem hi)
  have hfind : ((trueUpWin now rank queues names rows q.name).findIdx? fun w => w.key = s.key) = some i := by
    refine List.findIdx?_eq_some_iff_getElem.mpr ⟨hi, by simpa using hkey.symm, fun k hk hkkey => ?_⟩
    have hsame := List.pairwise_iff_getElem.mp (List.pairwise_map.mp (trueUpWin_keys_nodup hkeys hq hname)) k i
      (Nat.lt_trans hk hi) hi hk
    exact hsame ((of_decide_eq_true hkkey).trans hkey)
  refine ⟨s, hs, _, (trueUpWin now rank queues names rows q.name)[i].delta.raise
    (binCount (trueUpThresholds (trueUpWin now rank queues names rows q.name)) q.name (i + 1) jobs), hsname, hdelta,
    ?_, ?_⟩
  · simp only [hsname, raisedRow, hfind, hdelta, Option.map_some]
  · simp only [RecordedDelta.raise, lt_sup_iff, lt_self_iff_false, false_or]
    simp only [QueueStats.total] at hlt
    omega

/-- A flagged queue has a snapshot that the fix raises. -/
theorem raisedRow_of_trueUpFlag (hkeys : (rows.map StatsRow.key).Nodup)
    (hq : (queues.find? fun p => p.name = q.name) = some q) (hname : q.name ∈ names) (rank : StatsKey → ℕ)
    (hflag : trueUpFlag now q jobs rows = true) :
    ∃ s ∈ rows, ∃ d d', s.name = q.name ∧ s.delta = some d ∧
      raisedRow (trueUpWin now rank queues names rows s.name) jobs s = { s with delta := some d' } ∧
      (d.createdDelta < d'.createdDelta ∨ d.completedDelta < d'.completedDelta ∨ d.failedDelta < d'.failedDelta) := by
  obtain ⟨i, hi, hlt⟩ := exists_lt_of_trueUpFlag rank hq hname hflag
  exact raisedRow_of_lt hkeys hq hname hi hlt

/-- After a run the check no longer flags the queue. -/
theorem trueUpFlag_trueUp (hkeys : (rows.map StatsRow.key).Nodup)
    (hq : (queues.find? fun p => p.name = q.name) = some q) (hname : q.name ∈ names) (r : TrueUpRun) :
    trueUpFlag r.now q jobs (r.trueUp queues names jobs rows) = false := by
  refine Bool.eq_false_iff.mpr fun hflag => ?_
  obtain ⟨s, hs, d, d', -, hd, hraised, hlt⟩ := raisedRow_of_trueUpFlag (trueUp_keys hkeys) hq hname r.rank hflag
  -- a second run at the same instant raises nothing
  have hagain := trueUp_again hkeys (startsNoEarlier_self queues names rows r) jobs
  have hsame : raisedRow (trueUpWin r.now r.rank queues names (r.trueUp queues names jobs rows) s.name) jobs s = s :=
    List.map_inj_left.mp (hagain.trans (List.map_id _).symm) s hs
  rw [hraised] at hsame
  have hdelta := congrArg StatsRow.delta hsame
  obtain rfl := Option.some.inj (hdelta.trans hd)
  omega

/-- Queue names are unique, so a queue is found under its own. -/
theorem find?_name_of_mem (hqueues : (queues.map Queue.name).Nodup) (hq : q ∈ queues) :
    (queues.find? fun p => p.name = q.name) = some q := by
  obtain ⟨p, hp⟩ := Option.isSome_iff_exists.mp
    (List.find?_isSome.mpr ⟨q, hq, decide_eq_true rfl⟩ : (queues.find? fun p => p.name = q.name).isSome)
  have hname : p.name = q.name := by simpa using List.find?_some hp
  rw [hp, List.inj_on_of_nodup_map hqueues (List.mem_of_find?_eq_some hp) hq hname]

/-- The check and the fix rest on one anchor and one set of windows; a flagged queue has a snapshot that the fix
raises, and after a run the check flags it no more. -/
theorem trueUpCheck_agrees (t : StatsTable) (queues : List Queue) (names : List String) (q : Queue)
    (hqueues : (queues.map Queue.name).Nodup) (hq : q ∈ queues) (hname : q.name ∈ names) (r : TrueUpRun)
    (jobs : List Job) :
    ((trueUpWindows r.now queues names t.rows).filter fun w => w.name = q.name) =
        (settledReach r.now q t.rows).map (fun s => ⟨s.1, q.name, s.2, settledAnchor r.now q t.rows⟩) ∧
      ((trueUpWin r.now r.rank queues names t.rows q.name).map fun w => (w.key, w.delta)).Perm
        (settledWindows r.now q t.rows) ∧
      (trueUpFlag r.now q jobs t.rows = true → ∃ s ∈ t.rows, ∃ d d', s.name = q.name ∧ s.delta = some d ∧
        { s with delta := some d' } ∈ r.trueUp queues names jobs t.rows ∧
        (d.createdDelta < d'.createdDelta ∨ d.completedDelta < d'.completedDelta ∨ d.failedDelta < d'.failedDelta)) ∧
      trueUpFlag r.now q jobs (r.trueUp queues names jobs t.rows) = false := by
  have hfind := find?_name_of_mem hqueues hq
  refine ⟨trueUpWindows_filter r.now t.rows hfind hname, trueUpWin_perm r.now r.rank t.rows hfind hname, fun hflag => ?_,
    trueUpFlag_trueUp t.keys hfind hname r⟩
  obtain ⟨s, hs, d, d', hsname, hd, hraised, hlt⟩ := raisedRow_of_trueUpFlag t.keys hfind hname r.rank hflag
  exact ⟨s, hs, d, d', hsname, hd, hraised ▸ List.mem_map_of_mem hs, hlt⟩

/-- A job created in a window that was counted before it committed: the check fires, and the fix raises a snapshot. -/
theorem trueUpCheck_agrees_lateJob :
    trueUpFlag insertionOrder.now twinsQueue (jobsAt "q" (100 * microsPerSecond) 1) twins.rows = true ∧
      ((trueUpWindows insertionOrder.now [twinsQueue] ["q"] twins.rows).filter fun w => w.name = twinsQueue.name) =
        (settledReach insertionOrder.now twinsQueue twins.rows).map
          (fun s => ⟨s.1, twinsQueue.name, s.2, settledAnchor insertionOrder.now twinsQueue twins.rows⟩) ∧
      (∃ s ∈ twins.rows, ∃ d d', s.name = twinsQueue.name ∧ s.delta = some d ∧ { s with delta := some d' } ∈
        insertionOrder.trueUp [twinsQueue] ["q"] (jobsAt "q" (100 * microsPerSecond) 1) twins.rows ∧
        (d.createdDelta < d'.createdDelta ∨ d.completedDelta < d'.completedDelta ∨ d.failedDelta < d'.failedDelta)) ∧
      trueUpFlag insertionOrder.now twinsQueue (jobsAt "q" (100 * microsPerSecond) 1)
        (insertionOrder.trueUp [twinsQueue] ["q"] (jobsAt "q" (100 * microsPerSecond) 1) twins.rows) = false := by
  have hflag : trueUpFlag insertionOrder.now twinsQueue (jobsAt "q" (100 * microsPerSecond) 1) twins.rows = true := by
    decide +kernel
  obtain ⟨hwindows, -, hraised, hsettled⟩ := trueUpCheck_agrees twins [twinsQueue] ["q"] twinsQueue (by decide)
    (by decide) (by decide) insertionOrder (jobsAt "q" (100 * microsPerSecond) 1)
  exact ⟨hflag, hwindows, hraised hflag, hsettled⟩

end PgBoss
