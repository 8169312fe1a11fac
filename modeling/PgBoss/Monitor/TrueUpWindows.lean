import PgBoss.Plans.TrueUp

/-!
# The windows of a true-up

The windows of a queue share one anchor and are sorted by their ends, so the binary search places a
stamp in the window that holds it. They depend on what the snapshots recorded of time alone: a run
that raises counters leaves them as they were.
-/

namespace PgBoss

variable {now : ℤ} {rank : StatsKey → ℕ} {queues : List Queue} {names : List String} {rows rows' : List StatsRow}
  {name : String} {jobs : List Job} {w w' : TrueUpWindow} {win win' : List TrueUpWindow} {s : StatsRow}

instance : Std.Total (TrueUpWindow.before rank) where
  total a b := by
    simp only [TrueUpWindow.before]
    omega

instance : IsTrans TrueUpWindow (TrueUpWindow.before rank) where
  trans a b c hab hbc := by
    simp only [TrueUpWindow.before] at *
    omega

/-- The anchor of a queue, as `trueUpWindows` computes it. -/
def trueUpH (now : ℤ) (queues : List Queue) (names : List String) (rows : List StatsRow) (name : String) : Option ℤ :=
  partitionAnchor now ((reachedRows now queues names rows).filter fun y => y.queue.name = name)

/-- A window is that of a snapshot of its queue, past the anchor of the queue. -/
theorem of_mem_trueUpWin (h : w ∈ trueUpWin now rank queues names rows name) :
    (∃ s ∈ rows, s.name = name ∧ s.key = w.key ∧ s.delta = some w.delta) ∧
      trueUpH now queues names rows name = some w.h ∧ w.h < w.delta.deltaOn := by
  obtain ⟨x, hx, hw⟩ := List.mem_filterMap.mp ((List.perm_insertionSort _ _).mem_iff.mp h)
  obtain ⟨y, hy, rfl⟩ := List.mem_map.mp hx
  obtain ⟨s, hs, hreached⟩ := List.mem_filterMap.mp hy
  split at hw
  case isFalse => cases hw
  case isTrue hname =>
    obtain ⟨a, ha, hw⟩ := Option.bind_eq_some_iff.mp hw
    split at hw
    case isFalse => cases hw
    case isTrue hpast =>
      obtain rfl := Option.some.inj hw
      split at hreached
      case isFalse => cases hreached
      case isTrue =>
        obtain ⟨q, hq, hreached⟩ := Option.bind_eq_some_iff.mp hreached
        obtain ⟨d, hd, rfl⟩ := Option.map_eq_some_iff.mp hreached
        have hqueue : q.name = s.name := by simpa using List.find?_some hq
        rw [trueUpReach] at hd
        split at hd
        case isFalse => cases hd
        case isTrue =>
          refine ⟨⟨s, hs, hqueue.symm.trans hname, rfl, hd⟩, ?_, hpast⟩
          rw [trueUpH, ← hname]
          exact ha

/-- The windows stand in the order of their ends. -/
theorem trueUpWin_sorted :
    (trueUpWin now rank queues names rows name).Pairwise fun a b => a.delta.deltaOn ≤ b.delta.deltaOn := by
  refine (List.pairwise_insertionSort (TrueUpWindow.before rank) _).imp fun hab => ?_
  rcases hab with hlt | ⟨heq, -⟩
  · exact hlt.le
  · exact heq.le

/-- The thresholds are sorted. -/
theorem trueUpThresholds_sorted : (trueUpThresholds (trueUpWin now rank queues names rows name)).Pairwise (· ≤ ·) := by
  have hsorted : (trueUpWin now rank queues names rows name).Pairwise fun a b => a.delta.deltaOn ≤ b.delta.deltaOn :=
    trueUpWin_sorted
  have hpast := fun w (hw : w ∈ trueUpWin now rank queues names rows name) => (of_mem_trueUpWin hw).2
  cases hwin : trueUpWin now rank queues names rows name with
  | nil => exact .nil
  | cons w win =>
    rw [hwin] at hsorted hpast
    refine List.pairwise_cons.mpr ⟨fun a ha => ?_, List.pairwise_map.mpr hsorted⟩
    obtain ⟨v, hv, rfl⟩ := List.mem_map.mp ha
    have hanchor := Option.some.inj ((hpast w List.mem_cons_self).1.symm.trans (hpast v hv).1)
    rw [hanchor]
    exact (hpast v hv).2.le

theorem trueUpThresholds_length (hwin : win ≠ []) : (trueUpThresholds win).length = win.length + 1 := by
  cases win with
  | nil => contradiction
  | cons w win => simp [trueUpThresholds]

/-- A window ends at the threshold after its own. -/
theorem trueUpThresholds_getElem_succ {i : ℕ} (hi : i < win.length) (hi' : i + 1 < (trueUpThresholds win).length) :
    (trueUpThresholds win)[i + 1] = win[i].delta.deltaOn := by
  cases win with
  | nil => cases hi
  | cons w win =>
    simp only [trueUpThresholds, List.getElem_cons_succ, List.getElem_map]

/-- Where the window of a snapshot starts: where the window before it ends, or at the anchor. -/
def windowStart (win : List TrueUpWindow) (key : StatsKey) : Option ℤ :=
  (win.findIdx? fun w => w.key = key).bind fun i => (trueUpThresholds win)[i]?

/-- What the job table holds in a window: created in it, and completed or failed in it. -/
def windowCount (name : String) (start stop : ℤ) (jobs : List Job) : QueueStats where
  createdDelta := (createdIn name (some start) stop jobs).length
  completedDelta := (finishedIn name .completed (some start) stop jobs).length
  failedDelta := (finishedIn name .failed (some start) stop jobs).length

/-- The bucket past a threshold holds what lies between it and the next one. -/
theorem binCount_eq {t : List ℤ} (hsorted : t.Pairwise (· ≤ ·)) {i : ℕ} (hi : i + 1 < t.length) (name : String)
    (jobs : List Job) : binCount t name (i + 1) jobs = windowCount name t[i] t[i + 1] jobs := by
  have hhead : t.head? = some t[0] := by
    rw [List.head?_eq_getElem?, List.getElem?_eq_getElem]
  have hplaced : ∀ x : ℤ, (t.head?.any (fun h => decide (x ≥ h)) && decide (Tiling.bucket t x = i + 1)) =
      inWindow (some t[i]) t[i + 1] (some x) := by
    intro x
    have hfirst : t[0] ≤ t[i] := by
      rcases Nat.eq_zero_or_pos i with rfl | hpos
      · exact le_rfl
      · exact List.pairwise_iff_getElem.mp hsorted 0 i _ _ hpos
    rw [hhead, Option.any_some, inWindow, Bool.eq_iff_iff]
    simp only [Bool.and_eq_true, decide_eq_true_eq, Tiling.bucket_eq_succ_iff hsorted hi]
    omega
  have hcreated : createdBin t name (i + 1) jobs = createdIn name (some t[i]) t[i + 1] jobs := by
    refine List.filter_congr fun j _ => ?_
    rw [Bool.and_assoc, hplaced]
  have hfinished : ∀ state, finishedBin t name state (i + 1) jobs = finishedIn name state (some t[i]) t[i + 1] jobs := by
    refine fun state => List.filter_congr fun j _ => ?_
    cases j.completedOn with
    | none => rfl
    | some c => rw [Option.any_some, hplaced]
  rw [binCount, windowCount, hcreated, hfinished, hfinished]

/-- A window that starts somewhere has its place among the thresholds, and is that of its snapshot. -/
theorem windowStart_spec {a : ℤ} (hkeys : (rows.map StatsRow.key).Nodup) (hs : s ∈ rows)
    (hstart : windowStart (trueUpWin now rank queues names rows name) s.key = some a) :
    ∃ (i : ℕ) (d : RecordedDelta) (hi : i + 1 < (trueUpThresholds (trueUpWin now rank queues names rows name)).length),
      ((trueUpWin now rank queues names rows name).findIdx? fun w => w.key = s.key) = some i ∧
        s.name = name ∧ s.delta = some d ∧
        (trueUpThresholds (trueUpWin now rank queues names rows name))[i] = a ∧
        (trueUpThresholds (trueUpWin now rank queues names rows name))[i + 1] = d.deltaOn := by
  obtain ⟨i, hfind, hget⟩ := Option.bind_eq_some_iff.mp hstart
  obtain ⟨hi, hkey, -⟩ := List.findIdx?_eq_some_iff_getElem.mp hfind
  have hne : trueUpWin now rank queues names rows name ≠ [] := List.ne_nil_of_length_pos (Nat.zero_lt_of_lt hi)
  have hi' : i + 1 < (trueUpThresholds (trueUpWin now rank queues names rows name)).length := by
    rw [trueUpThresholds_length hne]
    omega
  obtain ⟨⟨s₀, hs₀, hname, hkey₀, hdelta⟩, -⟩ := of_mem_trueUpWin (List.getElem_mem hi)
  have hsame : s₀ = s := List.inj_on_of_nodup_map hkeys hs₀ hs (hkey₀.trans (by simpa using hkey))
  rw [List.getElem?_eq_getElem (Nat.lt_of_succ_lt hi')] at hget
  exact ⟨i, _, hi', hfind, hsame ▸ hname, hsame ▸ hdelta, Option.some.inj hget, trueUpThresholds_getElem_succ hi hi'⟩

/-- A snapshot with a window ends past the anchor of its queue. -/
theorem anchor_lt_of_windowStart {a : ℤ} {d : RecordedDelta} (hkeys : (rows.map StatsRow.key).Nodup) (hs : s ∈ rows)
    (hd : s.delta = some d) (hstart : windowStart (trueUpWin now rank queues names rows name) s.key = some a) :
    ∃ h, trueUpH now queues names rows name = some h ∧ h < d.deltaOn := by
  obtain ⟨i, hfind, -⟩ := Option.bind_eq_some_iff.mp hstart
  obtain ⟨hi, hkey, -⟩ := List.findIdx?_eq_some_iff_getElem.mp hfind
  obtain ⟨⟨s₀, hs₀, -, hkey₀, hdelta⟩, hanchor, hpast⟩ := of_mem_trueUpWin (List.getElem_mem hi)
  obtain rfl : s₀ = s := List.inj_on_of_nodup_map hkeys hs₀ hs (hkey₀.trans (by simpa using hkey))
  obtain rfl := Option.some.inj (hd.symm.trans hdelta)
  exact ⟨_, hanchor, hpast⟩

/-- The windows of two snapshots hold no stamp in common. -/
theorem windowStart_apart {s' : StatsRow} {d d' : RecordedDelta} {a a' x : ℤ} (hkeys : (rows.map StatsRow.key).Nodup)
    (hs : s ∈ rows) (hs' : s' ∈ rows) (hd : s.delta = some d) (hd' : s'.delta = some d')
    (hstart : windowStart (trueUpWin now rank queues names rows name) s.key = some a)
    (hstart' : windowStart (trueUpWin now rank queues names rows name) s'.key = some a')
    (hx : a ≤ x ∧ x < d.deltaOn) (hx' : a' ≤ x ∧ x < d'.deltaOn) : s = s' := by
  obtain ⟨i, e, hi, hfind, -, he, rfl, hend⟩ := windowStart_spec hkeys hs hstart
  obtain ⟨i', e', hi', hfind', -, he', rfl, hend'⟩ := windowStart_spec hkeys hs' hstart'
  obtain rfl := Option.some.inj (hd.symm.trans he)
  obtain rfl := Option.some.inj (hd'.symm.trans he')
  rw [← hend] at hx
  rw [← hend'] at hx'
  have hplace := (Tiling.bucket_eq_succ_iff trueUpThresholds_sorted hi).mpr hx
  have hplace' := (Tiling.bucket_eq_succ_iff trueUpThresholds_sorted hi').mpr hx'
  obtain rfl : i = i' := by omega
  obtain ⟨_, hkey, -⟩ := List.findIdx?_eq_some_iff_getElem.mp hfind
  obtain ⟨_, hkey', -⟩ := List.findIdx?_eq_some_iff_getElem.mp hfind'
  rw [decide_eq_true_eq] at hkey hkey'
  exact List.inj_on_of_nodup_map hkeys hs hs' (hkey.symm.trans hkey')

/-- A true-up compares a snapshot that has a window with the jobs that lie in it, and leaves the others. -/
theorem raisedRow_eq (hkeys : (rows.map StatsRow.key).Nodup) (hs : s ∈ rows) :
    raisedRow (trueUpWin now rank queues names rows name) jobs s =
      match windowStart (trueUpWin now rank queues names rows name) s.key with
      | none => s
      | some a => { s with delta := s.delta.map fun d => d.raise (windowCount s.name a d.deltaOn jobs) } := by
  cases hstart : windowStart (trueUpWin now rank queues names rows name) s.key with
  | some a =>
    obtain ⟨i, d, hi, hfind, -, hd, rfl, hend⟩ := windowStart_spec hkeys hs hstart
    simp only [raisedRow, hfind, hd, Option.map_some, binCount_eq trueUpThresholds_sorted hi, hend]
  | none =>
    rw [raisedRow]
    cases hfind : (trueUpWin now rank queues names rows name).findIdx? fun w => w.key = s.key with
    | none => rfl
    | some i =>
      obtain ⟨hi, -⟩ := List.findIdx?_eq_some_iff_getElem.mp hfind
      have hne : trueUpWin now rank queues names rows name ≠ [] := List.ne_nil_of_length_pos (Nat.zero_lt_of_lt hi)
      have hlength := trueUpThresholds_length hne
      rw [windowStart, hfind, Option.bind_some, List.getElem?_eq_none_iff] at hstart
      omega

/-- What of a recorded delta the windows are built from. -/
def RecordedDelta.forget (d : RecordedDelta) : RecordedDelta :=
  { d with createdDelta := 0, completedDelta := 0, failedDelta := 0 }

def StatsRow.forget (s : StatsRow) : StatsRow := { s with delta := s.delta.map RecordedDelta.forget }

def ReachedRow.forget (y : ReachedRow) : ReachedRow := { y with delta := y.delta.forget }

def TrueUpWindow.forget (w : TrueUpWindow) : TrueUpWindow := { w with delta := w.delta.forget }

theorem trueUpReach_forget (now : ℤ) (s : StatsRow) :
    trueUpReach now s.forget = (trueUpReach now s).map RecordedDelta.forget := by
  have hcaptured : s.forget.capturedOn = s.capturedOn := rfl
  rw [trueUpReach, trueUpReach, hcaptured]
  split <;> rfl

theorem reachedRows_forget (now : ℤ) (queues : List Queue) (names : List String) (rows : List StatsRow) :
    reachedRows now queues names (rows.map StatsRow.forget) =
      (reachedRows now queues names rows).map ReachedRow.forget := by
  rw [reachedRows, reachedRows, List.filterMap_map, List.map_filterMap]
  refine List.filterMap_congr fun s _ => ?_
  have hname : s.forget.name = s.name := rfl
  simp only [Function.comp, trueUpReach_forget, hname]
  by_cases hasked : s.name ∈ names
  · rw [if_pos hasked, if_pos hasked]
    cases queues.find? fun q => q.name = s.name with
    | none => rfl
    | some q => cases trueUpReach now s <;> rfl
  · rw [if_neg hasked, if_neg hasked]
    rfl

theorem partitionAnchor_forget (now : ℤ) (partition : List ReachedRow) :
    partitionAnchor now (partition.map ReachedRow.forget) = partitionAnchor now partition := by
  simp only [partitionAnchor, List.filterMap_map, List.map_map]
  rfl

/-- The windows, counters aside, depend on nothing but what the snapshots recorded of time. -/
theorem trueUpWin_forget (now : ℤ) (rank : StatsKey → ℕ) (queues : List Queue) (names : List String)
    (rows : List StatsRow) (name : String) :
    trueUpWin now rank queues names (rows.map StatsRow.forget) name =
      (trueUpWin now rank queues names rows name).map TrueUpWindow.forget := by
  have hsort : ∀ l : List TrueUpWindow, (l.insertionSort (TrueUpWindow.before rank)).map TrueUpWindow.forget =
      (l.map TrueUpWindow.forget).insertionSort (TrueUpWindow.before rank) :=
    fun l => List.map_insertionSort _ _ TrueUpWindow.forget l fun _ _ _ _ => Iff.rfl
  rw [trueUpWin, trueUpWin, hsort]
  congr 1
  have hpartition : ∀ x : ReachedRow, ((reachedRows now queues names rows).map ReachedRow.forget).filter
      (fun y => decide (y.queue.name = x.queue.name)) =
        ((reachedRows now queues names rows).filter fun y => y.queue.name = x.queue.name).map ReachedRow.forget :=
    fun x => List.filter_map
  rw [trueUpWindows, trueUpWindows, reachedRows_forget, List.map_map, List.filterMap_map, List.filterMap_map,
    List.map_filterMap]
  refine List.filterMap_congr fun x _ => ?_
  have hqueue : x.forget.queue = x.queue := rfl
  simp only [Function.comp, hqueue, hpartition, partitionAnchor_forget]
  by_cases hname : x.queue.name = name
  · rw [if_pos hname, if_pos hname]
    cases partitionAnchor now _ with
    | none => rfl
    | some h =>
      simp only [Option.bind_some]
      by_cases hpast : h < x.delta.deltaOn
      · rw [if_pos hpast, if_pos (show h < x.forget.delta.deltaOn from hpast)]
        rfl
      · rw [if_neg hpast, if_neg (show ¬ h < x.forget.delta.deltaOn from hpast)]
        rfl
  · rw [if_neg hname, if_neg hname]
    rfl

/-- Windows that differ in their counters alone start and place alike. -/
theorem windowStart_congr (h : win'.map TrueUpWindow.forget = win.map TrueUpWindow.forget) (key : StatsKey) :
    windowStart win' key = windowStart win key := by
  have hfind : ∀ win : List TrueUpWindow, (win.findIdx? fun w => w.key = key) =
      (win.map TrueUpWindow.forget).findIdx? fun w => w.key = key := by
    intro win
    rw [List.findIdx?_map]
    rfl
  have hthresholds : ∀ win : List TrueUpWindow, trueUpThresholds win = trueUpThresholds (win.map TrueUpWindow.forget) := by
    intro win
    cases win with
    | nil => rfl
    | cons w win =>
      simp only [trueUpThresholds, List.map_cons, List.map_map]
      rfl
  rw [windowStart, windowStart, hfind win', hfind win, hthresholds win', hthresholds win, h]

/-- A run leaves the windows as they were. -/
theorem windowStart_trueUpQueueStats (now' : ℤ) (rank' : StatsKey → ℕ) (key : StatsKey) :
    windowStart (trueUpWin now' rank' queues names (trueUpQueueStats now rank queues names jobs rows) name) key =
      windowStart (trueUpWin now' rank' queues names rows name) key := by
  have hforget : (trueUpQueueStats now rank queues names jobs rows).map StatsRow.forget = rows.map StatsRow.forget := by
    rw [trueUpQueueStats, List.map_map]
    refine List.map_congr_left fun s _ => ?_
    simp only [Function.comp, raisedRow]
    split
    · rfl
    · cases hd : s.delta with
      | none => simp [StatsRow.forget, hd]
      | some d => simp [StatsRow.forget, hd, RecordedDelta.raise, RecordedDelta.forget]
  refine windowStart_congr ?_ key
  rw [← trueUpWin_forget, ← trueUpWin_forget, hforget]

end PgBoss
