import PgBoss.Monitor.Claims

/-!
# The recorded history

A snapshot copies a queue row a statement after the count that wrote it. As long as no other count has
written the row in between, each count of a queue is recorded at most once, by its own pass, and sums
over the history stay within what was counted. A pass delayed past another one's count copies that
one's counters instead, and they are recorded twice. The interval claim is what keeps passes apart: it does
so as long as each of them counts and inserts within an interval of its claim.
-/

namespace PgBoss

namespace SuperviseWorld

variable {ι : Type*} {shortest : ℤ} {w w' w₀ : SuperviseWorld ι}

/-- The counters of every queue of a pass are still those its own count wrote. -/
def StillOwn (w : SuperviseWorld ι) (p : SupervisePass) (serial : ℕ) : Prop :=
  ∀ name ∈ p.names, w.source name = some serial

/-- What every reachable state keeps: a row holds the counters of the count that wrote it last, every count of a queue
has its own number, and a snapshot is that of the count of its pass, which has recorded no other. -/
structure Recorded (w : SuperviseWorld ι) : Prop where
  source : ∀ name n, w.source name = some n → ⟨n, name, (w.queues name).throughput⟩ ∈ w.counted
  serials : ∀ i p n, w.passes i = some p → p.serial = some n → n < w.serials
  recordedBy : ∀ s ∈ w.history, s.recordedBy < w.serials
  names : ∀ i p, w.passes i = some p → p.names.Nodup
  distinct : ∀ i k p q n, w.passes i = some p → w.passes k = some q → p.serial = some n → q.serial = some n → i = k
  pending : ∀ i p n, w.passes i = some p → p.serial = some n → ∀ s ∈ w.history, s.recordedBy ≠ n
  own : ∀ s ∈ w.history, s.source = some s.recordedBy
  counted : ∀ s ∈ w.history, ⟨s.recordedBy, s.queue, s.deltas⟩ ∈ w.counted
  once : (w.history.map fun s => (s.queue, s.source)).Nodup

theorem Start.recorded (h : w.Start) : w.Recorded where
  source name n hn := nomatch (h.source name).symm.trans hn
  serials i p n hp := nomatch (h.passes i).symm.trans hp
  recordedBy := by simp [h.history]
  names i p hp := nomatch (h.passes i).symm.trans hp
  distinct i k p q n hp := nomatch (h.passes i).symm.trans hp
  pending i p n hp := nomatch (h.passes i).symm.trans hp
  own := by simp [h.history]
  counted := by simp [h.history]
  once := by simp [h.history]

/-- Counters, counts and snapshots stay as they were; a pass under way has not counted since. -/
structure KeepsCounts (w w' : SuperviseWorld ι) : Prop where
  counted : w'.counted = w.counted
  history : w'.history = w.history
  source : w'.source = w.source
  serials : w'.serials = w.serials
  rows : ∀ name, (w'.queues name).throughput = (w.queues name).throughput
  names : ∀ i p, w'.passes i = some p → p.names.Nodup
  passes : ∀ i p n, w'.passes i = some p → p.serial = some n → w.passes i = some p

theorem Recorded.keepsCounts (h : w.Recorded) (hkeeps : KeepsCounts w w') : w'.Recorded := by
  obtain ⟨hcounted, hhistory, hsource, hserials, hrows, hnames, hpasses⟩ := hkeeps
  constructor
  case source =>
    intro name n hn
    rw [hrows, hcounted]
    exact h.source name n (hsource ▸ hn)
  case serials => exact fun i p n hp hn => hserials ▸ h.serials i p n (hpasses i p n hp hn) hn
  case recordedBy => exact hhistory ▸ hserials ▸ h.recordedBy
  case names => exact hnames
  case distinct =>
    exact fun i k p q n hp hq hn hn' => h.distinct i k p q n (hpasses i p n hp hn) (hpasses k q n hq hn') hn hn'
  case pending => exact fun i p n hp hn => hhistory ▸ h.pending i p n (hpasses i p n hp hn) hn
  case own => exact hhistory ▸ h.own
  case counted => exact hhistory ▸ hcounted ▸ h.counted
  case once => exact hhistory ▸ h.once

variable [DecidableEq ι]

theorem Recorded.count (h : w.Recorded) {i : ι} {p : SupervisePass} (hp : w.passes i = some p) (jobNow passSeconds : ℤ)
    (snapshot : String → Option ℤ × List Job) : (w.count i p jobNow passSeconds snapshot).Recorded := by
  constructor
  case source =>
    intro name n hn
    simp only [SuperviseWorld.count] at hn ⊢
    split at hn
    case isTrue hname =>
      obtain rfl := Option.some.inj hn
      rw [if_pos hname]
      exact List.mem_append_left _ (List.mem_map.mpr ⟨name, hname, rfl⟩)
    case isFalse hname =>
      rw [if_neg hname]
      exact List.mem_append_right _ (h.source name n hn)
  case serials =>
    intro k q n hq hn
    rcases of_passes_update hq with ⟨-, hthis⟩ | ⟨-, hq⟩
    · obtain rfl := Option.some.inj hthis
      obtain rfl := Option.some.inj hn
      exact Nat.lt_succ_self _
    · exact Nat.lt_succ_of_lt (h.serials k q n hq hn)
  case recordedBy => exact fun s hs => Nat.lt_succ_of_lt (h.recordedBy s hs)
  case names =>
    intro k q hq
    rcases of_passes_update hq with ⟨-, hthis⟩ | ⟨-, hq⟩
    · obtain rfl := Option.some.inj hthis
      exact h.names i p hp
    · exact h.names k q hq
  case distinct =>
    -- the number of this count is new
    intro k l q r n hq hr hqn hrn
    rcases of_passes_update hq with ⟨rfl, hqnew⟩ | ⟨-, hqold⟩
    · rcases of_passes_update hr with ⟨rfl, -⟩ | ⟨-, hrold⟩
      · rfl
      · obtain rfl := Option.some.inj hqnew
        obtain rfl := Option.some.inj hqn
        exact absurd (h.serials l r _ hrold hrn) (Nat.lt_irrefl _)
    · rcases of_passes_update hr with ⟨rfl, hrnew⟩ | ⟨-, hrold⟩
      · obtain rfl := Option.some.inj hrnew
        obtain rfl := Option.some.inj hrn
        exact absurd (h.serials k q _ hqold hqn) (Nat.lt_irrefl _)
      · exact h.distinct k l q r n hqold hrold hqn hrn
  case pending =>
    intro k q n hq hn s hs
    rcases of_passes_update hq with ⟨-, hthis⟩ | ⟨-, hq⟩
    · obtain rfl := Option.some.inj hthis
      obtain rfl := Option.some.inj hn
      exact Nat.ne_of_lt (h.recordedBy s hs)
    · exact h.pending k q n hq hn s hs
  case own => exact h.own
  case counted => exact fun s hs => List.mem_append_right _ (h.counted s hs)
  case once => exact h.once

theorem Recorded.insertQueueStats (h : w.Recorded) {i : ι} {p : SupervisePass} {serial : ℕ}
    (hp : w.passes i = some p) (hserial : p.serial = some serial) (hown : w.StillOwn p serial) :
    (w.insertQueueStats i p serial).Recorded := by
  have hothers : ∀ k q, (w.insertQueueStats i p serial).passes k = some q → k ≠ i ∧ w.passes k = some q :=
    fun k q hq => of_ended hq
  have hnew : ∀ s, s ∈ (w.insertQueueStats i p serial).history ↔
      (∃ name ∈ p.names, ⟨name, (w.queues name).throughput, w.clock, serial, w.source name⟩ = s) ∨ s ∈ w.history := by
    intro s
    simp only [SuperviseWorld.insertQueueStats, List.mem_append, List.mem_map]
  constructor
  case source => exact h.source
  case serials => exact fun k q n hq => h.serials k q n (hothers k q hq).2
  case recordedBy =>
    intro s hs
    rcases (hnew s).mp hs with ⟨name, -, rfl⟩ | hs
    · exact h.serials i p serial hp hserial
    · exact h.recordedBy s hs
  case names => exact fun k q hq => h.names k q (hothers k q hq).2
  case distinct => exact fun k l q r n hq hr => h.distinct k l q r n (hothers k q hq).2 (hothers l r hr).2
  case pending =>
    intro k q n hq hn s hs
    obtain ⟨hk, hq⟩ := hothers k q hq
    rcases (hnew s).mp hs with ⟨name, -, rfl⟩ | hs
    · rintro rfl
      exact hk (h.distinct k i q p _ hq hp hn hserial)
    · exact h.pending k q n hq hn s hs
  case own =>
    intro s hs
    rcases (hnew s).mp hs with ⟨name, hname, rfl⟩ | hs
    · exact hown name hname
    · exact h.own s hs
  case counted =>
    intro s hs
    rcases (hnew s).mp hs with ⟨name, hname, rfl⟩ | hs
    · exact h.source name serial (hown name hname)
    · exact h.counted s hs
  case once =>
    simp only [SuperviseWorld.insertQueueStats, List.map_append, List.map_map]
    refine List.nodup_append.mpr ⟨?_, h.once, ?_⟩
    · exact (h.names i p hp).map_on fun a _ b _ hab => congrArg Prod.fst hab
    · intro a ha b hb heq
      obtain ⟨name, hname, rfl⟩ := List.mem_map.mp ha
      obtain ⟨s, hs, rfl⟩ := List.mem_map.mp hb
      -- the pass would have recorded this count before
      have hsame : w.source name = s.source := congrArg Prod.snd heq
      rw [hown name hname, h.own s hs] at hsame
      exact h.pending i p serial hp hserial s hs (Option.some.inj hsame).symm

theorem Recorded.release (h : w.Recorded) (i : ι) (p : SupervisePass) (names : List String)
    {set : SupervisedQueue → SupervisedQueue} (hset : ∀ q, (set q).throughput = q.throughput) :
    (w.release i p names set).Recorded := by
  refine h.keepsCounts ⟨rfl, rfl, rfl, rfl, fun name => ?_, fun k q hq => ?_, fun k q n hq hn => ?_⟩
  · simp only [SuperviseWorld.release]
    split
    · exact hset _
    · rfl
  · exact h.names k q (of_ended hq).2
  · exact (of_ended hq).2

theorem Recorded.step {mayRelease : SuperviseWorld ι → SupervisePass → Prop} (h : w.Recorded)
    (hstep : w.Step shortest mayRelease StillOwn w') : w'.Recorded := by
  cases hstep with
  | tick now hnow => exact h.keepsCounts ⟨rfl, rfl, rfl, rfl, fun _ => rfl, h.names, fun _ _ _ hp _ => hp⟩
  | claim i kind interval names skipped hidle hinterval =>
    refine h.keepsCounts ⟨rfl, rfl, rfl, rfl, fun name => ?_, fun k q hq => ?_, fun k q n hq hn => ?_⟩
    · simp only [claim]
      split
      · exact SupervisedQueue.throughput_setClaimOn _ _ _
      · rfl
    · rcases of_passes_update hq with ⟨-, hnew⟩ | ⟨-, hq⟩
      · obtain rfl := Option.some.inj hnew
        exact claimable_spec.1
      · exact h.names k q hq
    · rcases of_passes_update hq with ⟨-, hnew⟩ | ⟨-, hq⟩
      · obtain rfl := Option.some.inj hnew
        cases hn
      · exact hq
  | count i p jobNow passSeconds snapshot hp hkind hserial => exact h.count hp jobNow passSeconds snapshot
  | loseLock i p hp hkind hserial hmay => exact h.release i p p.names fun _ => rfl
  | record i p serial hp hserial hmay => exact h.insertQueueStats hp hserial hmay
  | handBack i p names hp hkind hnames =>
    exact h.release i p names fun q => SupervisedQueue.throughput_releaseDeletionTime q p.stamp
  | finish i =>
    refine h.keepsCounts ⟨rfl, rfl, rfl, rfl, fun _ => rfl, fun k q hq => ?_, fun k q n hq hn => ?_⟩
    · exact h.names k q (of_ended hq).2
    · exact (of_ended hq).2
  | refresh name jobNow =>
    refine h.keepsCounts ⟨rfl, rfl, rfl, rfl, fun other => ?_, h.names, fun _ _ _ hp _ => hp⟩
    by_cases hother : other = name
    · subst hother
      simp only [Function.update_self]
    · simp only [Function.update_of_ne hother]

theorem Run.recorded {mayRelease : SuperviseWorld ι → SupervisePass → Prop} (hstart : w₀.Start)
    (hrun : Run shortest mayRelease StillOwn w₀ w) : w.Recorded := by
  induction hrun with
  | refl => exact hstart.recorded
  | tail _ hstep ih => exact ih.step hstep

omit [DecidableEq ι] in
/-- A sum over what the history records of a queue is at most the sum over what was counted of it. -/
theorem Recorded.sum_le (h : w.Recorded) (name : String) (f : Throughput → ℕ) :
    ((w.history.filter fun s => s.queue = name).map fun s => f s.deltas).sum ≤
      ((w.counted.filter fun c => c.queue = name).map fun c => f c.deltas).sum := by
  let entry : QueueSnapshot → CountedDeltas := fun s => ⟨s.recordedBy, s.queue, s.deltas⟩
  have hentry : ((w.history.filter fun s => s.queue = name).map entry).Nodup := by
    refine List.Nodup.of_map (fun c => (c.queue, some c.serial)) ?_
    rw [List.map_map]
    have hkeys : (w.history.filter fun s => s.queue = name).map ((fun c => (c.queue, some c.serial)) ∘ entry) =
        (w.history.filter fun s => s.queue = name).map fun s => (s.queue, s.source) := by
      refine List.map_congr_left fun s hs => ?_
      rw [h.own s (List.mem_filter.mp hs).1]
      rfl
    rw [hkeys]
    exact h.once.sublist (List.filter_sublist.map _)
  have hsubset : (w.history.filter fun s => s.queue = name).map entry ⊆ w.counted.filter fun c => c.queue = name := by
    intro c hc
    obtain ⟨s, hs, rfl⟩ := List.mem_map.mp hc
    obtain ⟨hs, hname⟩ := List.mem_filter.mp hs
    exact List.mem_filter.mpr ⟨h.counted s hs, hname⟩
  obtain ⟨l, hperm, hsublist⟩ := List.subperm_of_subset hentry hsubset
  calc ((w.history.filter fun s => s.queue = name).map fun s => f s.deltas).sum
      = (((w.history.filter fun s => s.queue = name).map entry).map fun c => f c.deltas).sum := by
        rw [List.map_map]
        rfl
    _ = (l.map fun c => f c.deltas).sum := (hperm.symm.map _).sum_eq
    _ ≤ ((w.counted.filter fun c => c.queue = name).map fun c => f c.deltas).sum :=
        (hsublist.map _).sum_le_sum fun _ _ => Nat.zero_le _

/-- Where every pass records counters that are still its own, a snapshot holds what its pass counted, no count of a
queue is recorded twice, and sums over the history are at most what was counted. -/
theorem history_records_once {mayRelease : SuperviseWorld ι → SupervisePass → Prop} (hstart : w₀.Start)
    (hrun : Run shortest mayRelease StillOwn w₀ w) :
    (∀ s ∈ w.history, s.source = some s.recordedBy ∧ ⟨s.recordedBy, s.queue, s.deltas⟩ ∈ w.counted) ∧
      (w.history.map fun s => (s.queue, s.source)).Nodup ∧
      ∀ name (f : Throughput → ℕ), ((w.history.filter fun s => s.queue = name).map fun s => f s.deltas).sum ≤
        ((w.counted.filter fun c => c.queue = name).map fun c => f c.deltas).sum :=
  have hrecorded := hrun.recorded hstart
  ⟨fun s hs => ⟨hrecorded.own s hs, hrecorded.counted s hs⟩, hrecorded.once, hrecorded.sum_le⟩

section Delayed

/-- A queue that no one has claimed. -/
def uncounted : SuperviseWorld Bool := { queues := fun _ => {}, clock := 0, passes := fun _ => none }

theorem uncounted_start : uncounted.Start := ⟨fun _ => rfl, rfl, rfl, fun _ => rfl, rfl, rfl⟩

/-- A job created 50 seconds in. -/
def lateJob : Job where
  id := 1
  name := "q"
  startAfter := 50 * microsPerSecond
  createdOn := 50 * microsPerSecond
  keepUntil := 1209600 * microsPerSecond

/-- What the first count sees, and what the second one does. -/
def firstSnapshot : String → Option ℤ × List Job := fun _ => (none, [])

def secondSnapshot : String → Option ℤ × List Job := fun _ => (some (20 * microsPerSecond), [lateJob])

/-- The passes of two instances, a minute apart, as they begin. -/
def firstPass : SupervisePass := { kind := .monitor, names := ["q"], stamp := 30 * microsPerSecond }

def secondPass : SupervisePass := { kind := .monitor, names := ["q"], stamp := 90 * microsPerSecond }

/-- Two passes one after the other, each recording its own count. -/
theorem history_records_once_twoPasses : ∃ w : SuperviseWorld Bool,
    (w.history.map fun s => s.deltas.createdDelta) = [1, 0] ∧
    (∀ s ∈ w.history, s.source = some s.recordedBy ∧ ⟨s.recordedBy, s.queue, s.deltas⟩ ∈ w.counted) ∧
      (w.history.map fun s => (s.queue, s.source)).Nodup ∧
      ∀ name (f : Throughput → ℕ), ((w.history.filter fun s => s.queue = name).map fun s => f s.deltas).sum ≤
        ((w.counted.filter fun c => c.queue = name).map fun c => f c.deltas).sum := by
  have hfirst : Run (60 * microsPerSecond) (fun _ _ => True) StillOwn uncounted _ :=
    .tail (.tail (.tail (.single (.tick (30 * microsPerSecond) (by decide)))
      (.claim false .monitor (60 * microsPerSecond) ["q"] [] rfl (by decide)))
      (.count false firstPass (30 * microsPerSecond) 60 firstSnapshot rfl rfl rfl))
      (.record false { firstPass with serial := some 0 } 0 rfl rfl (by unfold StillOwn; decide))
  have hsecond := (((hfirst.tail (.tick (90 * microsPerSecond) (by decide))).tail
    (.claim true .monitor (60 * microsPerSecond) ["q"] [] rfl (by decide))).tail
    (.count true secondPass (90 * microsPerSecond) 60 secondSnapshot rfl rfl rfl)).tail
    (.record true { secondPass with serial := some 1 } 1 rfl rfl (by unfold StillOwn; decide))
  exact ⟨_, by decide, history_records_once uncounted_start hsecond⟩

/-- A pass that inserts its snapshot after another one's count records that count a second time, and its own never. -/
theorem delayedInsert_recordsTwice : ∃ w : SuperviseWorld Bool,
    Run (60 * microsPerSecond) (fun _ _ => True) (fun _ _ _ => True) uncounted w ∧
      ¬ (∀ s ∈ w.history, s.source = some s.recordedBy ∧ ⟨s.recordedBy, s.queue, s.deltas⟩ ∈ w.counted) ∧
      ¬ (w.history.map fun s => (s.queue, s.source)).Nodup ∧
      ((w.counted.filter fun c => c.queue = "q").map fun c => c.deltas.createdDelta).sum <
        ((w.history.filter fun s => s.queue = "q").map fun s => s.deltas.createdDelta).sum := by
  have hfirst : Run (60 * microsPerSecond) (fun _ _ => True) (fun _ _ _ => True) uncounted _ :=
    .tail (.tail (.single (.tick (30 * microsPerSecond) (by decide)))
      (.claim false .monitor (60 * microsPerSecond) ["q"] [] rfl (by decide)))
      (.count false firstPass (30 * microsPerSecond) 60 firstSnapshot rfl rfl rfl)
  have hsecond := ((hfirst.tail (.tick (90 * microsPerSecond) (by decide))).tail
    (.claim true .monitor (60 * microsPerSecond) ["q"] [] rfl (by decide))).tail
    (.count true secondPass (90 * microsPerSecond) 60 secondSnapshot rfl rfl rfl)
  have hboth := (hsecond.tail (.record true { secondPass with serial := some 1 } 1 rfl rfl trivial)).tail
    (.record false { firstPass with serial := some 0 } 0 rfl rfl trivial)
  exact ⟨_, hboth, by decide, by decide, by decide⟩

end Delayed

section Prompt

/-- A pass is within an interval of its claim. -/
def Within (shortest : ℤ) (w : SuperviseWorld ι) (p : SupervisePass) : Prop := w.clock < p.stamp + shortest

/-- A step in which no pass counts later than an interval after its claim. -/
def CountsWithin (shortest : ℤ) (w w' : SuperviseWorld ι) : Prop :=
  ∀ i p p', w.passes i = some p → w'.passes i = some p' → p.serial = none → p'.serial ≠ none → Within shortest w p

/-- A step in which no pass counts, hands its claims back or inserts later than an interval after its claim. -/
def PromptStep (shortest : ℤ) (w w' : SuperviseWorld ι) : Prop :=
  w.Step shortest (Within shortest) (fun w p _ => Within shortest w p) w' ∧ CountsWithin shortest w w'

/-- A pass that has counted is a monitor pass, and until an interval after its claim its counters stand. -/
def Undisturbed (shortest : ℤ) (w : SuperviseWorld ι) : Prop :=
  ∀ i p n, w.passes i = some p → p.serial = some n → p.kind = .monitor ∧ (Within shortest w p → w.StillOwn p n)

omit [DecidableEq ι] in
/-- What counted passes are left are those from before, and their counters stand. -/
theorem Undisturbed.keeps (h : w.Undisturbed shortest) (hclock : w.clock ≤ w'.clock) (hsource : w'.source = w.source)
    (hpasses : ∀ i p n, w'.passes i = some p → p.serial = some n → w.passes i = some p) : w'.Undisturbed shortest := by
  intro i p n hp hn
  obtain ⟨hkind, hown⟩ := h i p n (hpasses i p n hp hn) hn
  refine ⟨hkind, fun hwithin name hname => ?_⟩
  rw [hsource]
  exact hown (Int.lt_of_le_of_lt hclock hwithin) name hname

/-- A count within an interval of its claim writes no queue of another pass that is within one. -/
theorem Undisturbed.count (h : w.Undisturbed shortest) (hspaced : w.Spaced shortest) {i : ι} {p : SupervisePass}
    (hp : w.passes i = some p) (hkind : p.kind = .monitor) (hwithin : Within shortest w p) (jobNow passSeconds : ℤ)
    (snapshot : String → Option ℤ × List Job) : (w.count i p jobNow passSeconds snapshot).Undisturbed shortest := by
  intro k q n hq hn
  rcases of_passes_update hq with ⟨-, hthis⟩ | ⟨hk, hq⟩
  · obtain rfl := Option.some.inj hthis
    obtain rfl := Option.some.inj hn
    exact ⟨hkind, fun _ name hname => if_pos hname⟩
  · obtain ⟨hqkind, hown⟩ := h k q n hq hn
    refine ⟨hqkind, fun hqwithin name hname => ?_⟩
    have hother : name ∉ p.names := by
      intro hshared
      have hmine := hspaced.held i p hp name hshared
      have htheirs := hspaced.held k q hq name hname
      have hpast : p.stamp ≤ w.clock := hspaced.past _ hmine
      have hqpast : q.stamp ≤ w.clock := hspaced.past _ htheirs
      simp only [Within] at hwithin hqwithin
      rcases hspaced.eq_or_apart htheirs hmine rfl (hqkind.trans hkind.symm) with heq | hapart | hapart
      · exact hk (congrArg QueueClaim.owner heq)
      · have hlapsed : q.stamp + shortest ≤ p.stamp := hapart
        exact absurd (hlapsed.trans hpast) (Int.not_le.mpr hqwithin)
      · have hlapsed : p.stamp + shortest ≤ q.stamp := hapart
        exact absurd (hlapsed.trans hqpast) (Int.not_le.mpr hwithin)
    exact (if_neg hother).trans (hown hqwithin name hname)

theorem Undisturbed.step (h : w.Undisturbed shortest) (hspaced : w.Spaced shortest) (hstep : PromptStep shortest w w') :
    w'.Undisturbed shortest := by
  obtain ⟨hstep, hcounts⟩ := hstep
  cases hstep with
  | tick now hnow => exact h.keeps hnow rfl fun i p n hp _ => hp
  | claim i kind interval names skipped hidle hinterval =>
    refine h.keeps le_rfl rfl fun k q n hq hn => ?_
    rcases of_passes_update hq with ⟨-, hthis⟩ | ⟨-, hq⟩
    · obtain rfl := Option.some.inj hthis
      cases hn
    · exact hq
  | count i p jobNow passSeconds snapshot hp hkind hserial =>
    exact h.count hspaced hp hkind (hcounts i p _ hp (Function.update_self ..) hserial nofun) jobNow passSeconds snapshot
  | loseLock i p hp hkind hserial hmay => exact h.keeps le_rfl rfl fun k q n hq _ => (of_ended hq).2
  | record i p serial hp hserial hmay => exact h.keeps le_rfl rfl fun k q n hq _ => (of_ended hq).2
  | handBack i p names hp hkind hnames => exact h.keeps le_rfl rfl fun k q n hq _ => (of_ended hq).2
  | finish i => exact h.keeps le_rfl rfl fun k q n hq _ => (of_ended hq).2
  | refresh name jobNow => exact h.keeps le_rfl rfl fun i p n hp _ => hp

/-- A prompt step finds no newer claim where it hands its claims back, and its own counters where it inserts. -/
theorem PromptStep.step (h : w.Undisturbed shortest) (hspaced : w.Spaced shortest) (hstep : PromptStep shortest w w') :
    w.Step shortest NoNewerClaim StillOwn w' := by
  obtain ⟨hstep, -⟩ := hstep
  cases hstep with
  | tick now hnow => exact .tick now hnow
  | claim i kind interval names skipped hidle hinterval => exact .claim i kind interval names skipped hidle hinterval
  | count i p jobNow passSeconds snapshot hp hkind hserial => exact .count i p jobNow passSeconds snapshot hp hkind hserial
  | loseLock i p hp hkind hserial hmay => exact .loseLock i p hp hkind hserial (hspaced.noNewerClaim hp hkind hmay)
  | record i p serial hp hserial hmay => exact .record i p serial hp hserial ((h i p serial hp hserial).2 hmay)
  | handBack i p names hp hkind hnames => exact .handBack i p names hp hkind hnames
  | finish i => exact .finish i
  | refresh name jobNow => exact .refresh name jobNow

/-- Where every pass keeps to an interval after its claim, the claims keep the passes apart: no release meets a newer claim,
and every snapshot is of its own count. -/
theorem run_of_prompt (hshortest : 0 < shortest) (hstart : w₀.Start)
    (hrun : Relation.ReflTransGen (PromptStep shortest) w₀ w) : Run shortest NoNewerClaim StillOwn w₀ w := by
  have hkept : Run shortest NoNewerClaim StillOwn w₀ w ∧ w.Undisturbed shortest := by
    induction hrun with
    | refl => exact ⟨.refl, fun i p n hp => nomatch (hstart.passes i).symm.trans hp⟩
    | tail _ hstep ih =>
      have hspaced := ih.1.spaced hshortest hstart
      exact ⟨ih.1.tail (PromptStep.step ih.2 hspaced hstep), ih.2.step hspaced hstep⟩
  exact hkept.1

end Prompt

end SuperviseWorld

end PgBoss
