import PgBoss.Instance.Lives

/-!
# Crash restarts are counted exactly

Of the lives on a name and host that crashed in a row, the rows left are those of the latest, and the earliest of them
holds its own number. So the first row a count reads stands for the ones before it, and the count is the number of lives.
-/

namespace PgBoss

open Relational

namespace InstanceHistory

section Lists

variable {S lives kept lost rest newer older : List ProcessLife} {x b : ProcessLife}

/-- Lives that are over, the latest first: those that crashed since the last stop, with their rows and without, and the
rest from that stop on. The earliest row is numbered, and a stop whose row is gone leaves none before it. -/
structure Split (lives kept lost rest : List ProcessLife) : Prop where
  eq : lives = kept ++ (lost ++ rest)
  ofKept : ∀ x ∈ kept, x.crashed = true ∧ x.kept = true
  ofLost : ∀ x ∈ lost, x.crashed = true ∧ x.kept = false
  ofRest : ∀ x ∈ rest, x.ended = true
  stop : ∀ s older, rest = s :: older → s.stopped = true ∧ (s.kept = false → ∀ x ∈ older, x.kept = false)
  numbered : kept ++ lost ≠ [] → ∃ newer b, kept = newer ++ [b] ∧ b.numbered = true

/-- Numbered rows hold the number of lives that crashed right before theirs. -/
def Right (S : List ProcessLife) : Prop :=
  ∀ newer b older, S = newer ++ b :: older → b.kept = true → b.numbered = true → b.row.crashRestarts = (crashRun older : Int)

/-- The lives on a name and host: all over, or all but the latest, whose row is there. -/
def SlotInv (S : List ProcessLife) : Prop :=
  Right S ∧ ((∃ kept lost rest, Split S kept lost rest) ∨
    ∃ x older kept lost rest, S = x :: older ∧ (x.ended = false ∧ x.kept = true ∧ x.stopped = false) ∧
      Split older kept lost rest ∧ (kept ++ lost = [] → x.numbered = true))

theorem not_crashed_of_stopped (h : x.stopped = true) : x.crashed = false := by
  simp [ProcessLife.crashed, h]

theorem crashed_ended (h : x.crashed = true) : x.ended = true := by
  rw [ProcessLife.crashed, Bool.and_eq_true] at h
  exact h.1

theorem crashed_not_stopped (h : x.crashed = true) : x.stopped = false := by
  rw [ProcessLife.crashed, Bool.and_eq_true, Bool.not_eq_true'] at h
  exact h.2

theorem Split.ended (h : Split lives kept lost rest) : ∀ x ∈ lives, x.ended = true := by
  intro x hx
  rw [h.eq, List.mem_append, List.mem_append] at hx
  rcases hx with hx | hx | hx
  · exact crashed_ended (h.ofKept x hx).1
  · exact crashed_ended (h.ofLost x hx).1
  · exact h.ofRest x hx

theorem takeWhile_crashed (hnewer : ∀ x ∈ newer, x.crashed = true) (hrest : ∀ s older, rest = s :: older → s.stopped = true) :
    (newer ++ rest).takeWhile ProcessLife.crashed = newer := by
  rw [List.takeWhile_append_of_pos hnewer]
  cases rest with
  | nil => simp
  | cons s older => simp [not_crashed_of_stopped (hrest s older rfl)]

/-- The lives that crashed in a row, and how many. -/
theorem Split.takeWhile (h : Split lives kept lost rest) : lives.takeWhile ProcessLife.crashed = kept ++ lost := by
  rw [h.eq, ← List.append_assoc]
  refine takeWhile_crashed (fun x hx => ?_) fun s older hs => (h.stop s older hs).1
  exact (List.mem_append.mp hx).elim (fun hx => (h.ofKept x hx).1) fun hx => (h.ofLost x hx).1

theorem Split.crashRun (h : Split lives kept lost rest) : crashRun lives = (kept ++ lost).length := by
  rw [PgBoss.crashRun, h.takeWhile]

/-- The lives before one of those with a row. -/
theorem Split.before (h : Split lives (newer ++ b :: older) lost rest) :
    ((older ++ (lost ++ rest)).takeWhile ProcessLife.crashed) = older ++ lost := by
  rw [← List.append_assoc]
  refine takeWhile_crashed (fun x hx => ?_) fun s older hs => (h.stop s older hs).1
  refine (List.mem_append.mp hx).elim (fun hx => ?_) fun hx => (h.ofLost x hx).1
  exact (h.ofKept x (List.mem_append_right _ (List.mem_cons_of_mem _ hx))).1

/-- The first row is right about the lives whose rows are gone. -/
theorem Split.first (h : Split lives kept lost rest) (hright : Right lives) (hne : kept ++ lost ≠ []) :
    ∃ newer b, kept = newer ++ [b] ∧ b.numbered = true ∧ b.row.crashRestarts = (lost.length : Int) := by
  obtain ⟨newer, b, rfl, hnumbered⟩ := h.numbered hne
  have hkept := (h.ofKept b (List.mem_append_right _ List.mem_cons_self)).2
  have heq : lives = newer ++ b :: (lost ++ rest) := by
    rw [h.eq, List.append_assoc]
    rfl
  refine ⟨newer, b, rfl, hnumbered, ?_⟩
  rw [hright newer b (lost ++ rest) heq hkept hnumbered, PgBoss.crashRun]
  have hbefore : ([] ++ (lost ++ rest)).takeWhile ProcessLife.crashed = [] ++ lost := Split.before h
  rw [List.nil_append] at hbefore
  rw [hbefore, List.nil_append]

/-- A change that leaves how the lives ended, and the first row's number, leaves the split. -/
theorem Split.map (h : Split lives kept lost rest) (f : ProcessLife → ProcessLife)
    (hf : ∀ x ∈ lives, (f x).ended = x.ended ∧ (f x).stopped = x.stopped ∧ (f x).kept = x.kept)
    (hfirst : ∀ newer b, kept = newer ++ [b] → (f b).numbered = b.numbered) :
    Split (lives.map f) (kept.map f) (lost.map f) (rest.map f) := by
  have hin {x : ProcessLife} : x ∈ kept ∨ x ∈ lost ∨ x ∈ rest → x ∈ lives := fun hx => by
    rw [h.eq, List.mem_append, List.mem_append]
    exact hx
  have hcrashed {x : ProcessLife} (hx : x ∈ lives) : (f x).crashed = x.crashed := by
    rw [ProcessLife.crashed, ProcessLife.crashed, (hf x hx).1, (hf x hx).2.1]
  refine ⟨by rw [h.eq, List.map_append, List.map_append], ?_, ?_, ?_, ?_, ?_⟩
  · intro y hy
    obtain ⟨x, hx, rfl⟩ := List.mem_map.mp hy
    rw [hcrashed (hin (.inl hx)), (hf x (hin (.inl hx))).2.2]
    exact h.ofKept x hx
  · intro y hy
    obtain ⟨x, hx, rfl⟩ := List.mem_map.mp hy
    rw [hcrashed (hin (.inr (.inl hx))), (hf x (hin (.inr (.inl hx)))).2.2]
    exact h.ofLost x hx
  · intro y hy
    obtain ⟨x, hx, rfl⟩ := List.mem_map.mp hy
    rw [(hf x (hin (.inr (.inr hx)))).1]
    exact h.ofRest x hx
  · intro s' older' heq
    obtain ⟨s, older, rfl, rfl, rfl⟩ := List.map_eq_cons_iff.mp heq
    obtain ⟨hstopped, hgone⟩ := h.stop s older rfl
    have hs : s ∈ lives := hin (.inr (.inr List.mem_cons_self))
    refine ⟨(hf s hs).2.1.trans hstopped, fun hkept y hy => ?_⟩
    obtain ⟨x, hx, rfl⟩ := List.mem_map.mp hy
    rw [(hf x (hin (.inr (.inr (List.mem_cons_of_mem _ hx))))).2.2]
    exact hgone ((hf s hs).2.2.symm.trans hkept) x hx
  · intro hne
    have hne' : kept ++ lost ≠ [] := by
      intro hnil
      rw [List.append_eq_nil_iff] at hnil
      exact hne (by rw [hnil.1, hnil.2]; rfl)
    obtain ⟨newer, b, hkept, hnumbered⟩ := h.numbered hne'
    refine ⟨newer.map f, f b, by rw [hkept, List.map_append]; rfl, ?_⟩
    rw [hfirst newer b hkept, hnumbered]

theorem Right.tail (h : Right (x :: older)) : Right older := fun newer b rest heq =>
  h (x :: newer) b rest (by rw [heq]; rfl)

end Lists

/-- What holds throughout: the table has the rows of the lives whose rows are kept, of an id only the latest one's, and
lives of a name and host come one after the other. -/
structure Inv (w : InstanceHistory) : Prop where
  rows : w.table = (w.lives.filter ProcessLife.kept).map ProcessLife.row
  ids : w.lives.Pairwise fun a b => a.row.id = b.row.id → b.kept = false
  order : ∀ name host, (w.slot name host).Pairwise fun a b =>
    b.row.startedOn < a.row.startedOn ∧ b.row.heartbeatOn ≤ a.row.startedOn
  slots : ∀ name host, SlotInv (w.slot name host)

section World

variable {w : InstanceHistory} {me x y b : ProcessLife} {older newer kept lost rest : List ProcessLife} {now start : Timestamp}

theorem mem_slot {name : Option String} {host : String} :
    x ∈ w.slot name host ↔ x ∈ w.lives ∧ x.row.name = name ∧ x.row.host = host := by
  simp [slot]

theorem mem_own_slot (h : x ∈ w.lives) : x ∈ w.slot x.row.name x.row.host := mem_slot.mpr ⟨h, rfl, rfl⟩

/-- When they started tells the lives on a name and host apart. -/
theorem slot_nodup (h : w.Inv) (name : Option String) (host : String) :
    ((w.slot name host).map fun x => x.row.startedOn).Nodup :=
  List.pairwise_map.mpr ((h.order name host).imp fun hab => hab.1.ne')

theorem eq_of_row (h : w.Inv) (hx : x ∈ w.lives) (hy : y ∈ w.lives) (hrow : x.row = y.row) : x = y := by
  have hy' : y ∈ w.slot x.row.name x.row.host := hrow ▸ mem_own_slot hy
  exact List.inj_on_of_nodup_map (slot_nodup h x.row.name x.row.host) (mem_own_slot hx) hy' (congrArg InstanceRow.startedOn hrow)

/-- A life whose row is kept is the latest of its id. -/
theorem life_eq (h : w.Inv) (hx : x ∈ w.lives) (hkept : x.kept = true) : w.life x.row.id = some x := by
  obtain ⟨y, hy⟩ := Option.isSome_iff_exists.mp
    (List.find?_isSome.mpr ⟨x, hx, decide_eq_true rfl⟩ : (w.life x.row.id).isSome)
  obtain ⟨hid, later, earlier, hlives, hnone⟩ := List.find?_eq_some_iff_append.mp hy
  have hids := h.ids
  rw [hlives, List.pairwise_append, List.pairwise_cons] at hids
  rw [hlives] at hx
  rcases List.mem_append.mp hx with hx | hx
  · have hnot := hnone x hx
    simp at hnot
  · rcases List.mem_cons.mp hx with rfl | hx
    · exact hy
    · have hgone := hids.2.1.1 x hx (of_decide_eq_true hid)
      rw [hkept] at hgone
      cases hgone

theorem eq_of_id (h : w.Inv) (hx : x ∈ w.lives) (hy : y ∈ w.lives) (hxkept : x.kept = true) (hykept : y.kept = true)
    (hid : x.row.id = y.row.id) : x = y := by
  have hlife := life_eq h hx hxkept
  rw [hid, life_eq h hy hykept] at hlife
  exact (Option.some.inj hlife).symm

/-- Where a life is in its slot, the lives before and after it are those behind and ahead. -/
theorem around (h : w.Inv) {name : Option String} {host : String} (hslot : w.slot name host = newer ++ x :: older) :
    w.before x = older ∧ w.after x = newer := by
  have hx : x ∈ w.slot name host := hslot ▸ List.mem_append_right _ List.mem_cons_self
  obtain ⟨-, rfl, rfl⟩ := mem_slot.mp hx
  have hpairs := h.order x.row.name x.row.host
  rw [hslot, List.pairwise_append, List.pairwise_cons] at hpairs
  obtain ⟨-, ⟨hbehind, -⟩, hcross⟩ := hpairs
  have hahead : ∀ y ∈ newer, x.row.startedOn < y.row.startedOn := fun y hy => (hcross y hy x List.mem_cons_self).1
  constructor
  · rw [before, hslot, List.filter_append, List.filter_cons_of_neg (by simp),
      List.filter_eq_nil_iff.mpr fun y hy => by simpa using (hahead y hy).le,
      List.filter_eq_self.mpr fun y hy => by simpa using (hbehind y hy).1]
    rfl
  · rw [after, hslot, List.filter_append, List.filter_cons_of_neg (by simp),
      List.filter_eq_self.mpr fun y hy => by simpa using hahead y hy,
      List.filter_eq_nil_iff.mpr fun y hy => by simpa using (hbehind y hy).1.le, List.append_nil]

theorem before_latest (h : w.Inv) {name : Option String} {host : String} (hslot : w.slot name host = x :: older) :
    w.before x = older := by
  have hsplit : w.slot name host = [] ++ x :: older := hslot
  exact (around h hsplit).1

/-- A life under way is the latest on its name and host. -/
theorem slot_running (h : w.Inv) (hme : me ∈ w.lives) (hrunning : me.ended = false) :
    ∃ older kept lost rest, w.slot me.row.name me.row.host = me :: older ∧ (me.kept = true ∧ me.stopped = false) ∧
      Split older kept lost rest ∧ (kept ++ lost = [] → me.numbered = true) := by
  obtain ⟨-, ⟨kept, lost, rest, hsplit⟩ | ⟨x, older, kept, lost, rest, hslot, ⟨-, hkept, hstopped⟩, hsplit, hnumbered⟩⟩ :=
    h.slots me.row.name me.row.host
  · have hended := hsplit.ended me (mem_own_slot hme)
    rw [hrunning] at hended
    cases hended
  · have hin : me ∈ x :: older := hslot ▸ mem_own_slot hme
    rcases List.mem_cons.mp hin with rfl | hin
    · exact ⟨older, kept, lost, rest, hslot, ⟨hkept, hstopped⟩, hsplit, hnumbered⟩
    · have hended := hsplit.ended me hin
      rw [hrunning] at hended
      cases hended

theorem mem_table (h : w.Inv) {i : InstanceRow} : i ∈ w.table ↔ ∃ x ∈ w.lives, x.kept = true ∧ x.row = i := by
  rw [h.rows, List.mem_map]
  simp only [List.mem_filter, and_assoc]

/-- `me`. -/
theorem find_me (h : w.Inv) (hme : me ∈ w.lives) (hkept : me.kept = true) :
    (w.table.find? fun i => i.id = me.row.id) = some me.row := by
  obtain ⟨i, hi⟩ := Option.isSome_iff_exists.mp
    (List.find?_isSome.mpr ⟨me.row, (mem_table h).mpr ⟨me, hme, hkept, rfl⟩, decide_eq_true rfl⟩ :
      (w.table.find? fun i => i.id = me.row.id).isSome)
  obtain ⟨x, hx, hxkept, rfl⟩ := (mem_table h).mp (List.mem_of_find?_eq_some hi)
  have hid : x.row.id = me.row.id := by simpa using List.find?_some hi
  rw [hi, eq_of_id h hx hme hxkept hkept hid]

/-- A life before another has another id, if both have their rows. -/
theorem older_id (h : w.Inv) (hslot : w.slot me.row.name me.row.host = me :: older) (hkept : me.kept = true) (hx : x ∈ older)
    (hxkept : x.kept = true) : x.row.id ≠ me.row.id := by
  have hpairs := h.order me.row.name me.row.host
  rw [hslot, List.pairwise_cons] at hpairs
  have hin : ∀ y ∈ me :: older, y ∈ w.lives := fun y hy => (mem_slot.mp (hslot ▸ hy)).1
  intro hid
  obtain rfl := eq_of_id h (hin x (List.mem_cons_of_mem _ hx)) (hin me List.mem_cons_self) hxkept hkept hid
  exact lt_irrefl _ (hpairs.1 x hx).1

/-- Where a condition on rows is to be another life of the name and host, it holds of the rows kept of the lives before. -/
theorem rows_before (h : w.Inv) (hslot : w.slot me.row.name me.row.host = me :: older) (hkept : me.kept = true)
    {p : InstanceRow → Bool} (hp : ∀ x ∈ w.lives, x.kept = true → p x.row =
      (decide (x.row.id ≠ me.row.id) && (decide (x.row.name = me.row.name) && decide (x.row.host = me.row.host)))) :
    w.table.filter p = (older.filter ProcessLife.kept).map ProcessLife.row := by
  have hothers : (me :: older).filter (fun x => decide (x.row.id ≠ me.row.id) && x.kept) = older.filter ProcessLife.kept := by
    rw [List.filter_cons_of_neg (by simp)]
    refine List.filter_congr fun x hx => ?_
    cases hxkept : x.kept with
    | false => rw [Bool.and_false]
    | true => rw [decide_eq_true (older_id h hslot hkept hx hxkept), Bool.and_true]
  rw [h.rows, List.filter_map, List.filter_filter]
  congr 1
  rw [← hothers, ← hslot, slot, List.filter_filter]
  refine List.filter_congr fun x hx => ?_
  cases hxkept : x.kept with
  | false => simp
  | true => simp [hp x hx hxkept]

/-- A life that counts: the latest on its name and host, with its row there, and taking no life before for another object
of its process. -/
structure Counting (w : InstanceHistory) (me : ProcessLife) (older : List ProcessLife) (start : Timestamp) : Prop where
  slot : w.slot me.row.name me.row.host = me :: older
  kept : me.kept = true
  seen : ∀ x ∈ older, x.kept = true → x.row.pid = me.row.pid → x.row.startedOn < start

/-- `slot`: the rows kept of the lives before. -/
theorem slot_rows (h : w.Inv) (hme : w.Counting me older start) :
    w.table.filter ((me.counter start).inSlot me.row) = (older.filter ProcessLife.kept).map ProcessLife.row := by
  obtain ⟨hslot, hkept, hseen⟩ := hme
  have hpairs := h.order me.row.name me.row.host
  rw [hslot] at hpairs
  -- the conditions on time, and on the process, hold of every life before
  refine rows_before h hslot hkept fun x hx hxkept => ?_
  by_cases hin : x ∈ older
  · obtain ⟨-, hname, hhost⟩ := mem_slot.mp (hslot ▸ List.mem_cons_of_mem _ hin : x ∈ w.slot me.row.name me.row.host)
    obtain ⟨hbefore, hquiet⟩ := (List.pairwise_cons.mp hpairs).1 x hin
    have hother : (decide (x.row.pid = me.row.pid) && decide (start ≤ x.row.startedOn)) = false := by
      rw [Bool.and_eq_false_imp]
      exact fun hpid => decide_eq_false (not_le.mpr (hseen x hin hxkept (of_decide_eq_true hpid)))
    rw [CrashCounter.inSlot, ProcessLife.counter, hother]
    simp [hname, hhost, older_id h hslot hkept hin hxkept, hbefore, hquiet]
  · by_cases hid : x.row.id = me.row.id
    · simp [CrashCounter.inSlot, hid]
    · have hout : ¬ (x.row.name = me.row.name ∧ x.row.host = me.row.host) := by
        intro ⟨hname, hhost⟩
        have hin' : x ∈ me :: older := hslot ▸ mem_slot.mpr ⟨hx, hname, hhost⟩
        rcases List.mem_cons.mp hin' with rfl | hin'
        · exact hid rfl
        · exact hin hin'
      rw [not_and_or] at hout
      rcases hout with hout | hout <;> simp [CrashCounter.inSlot, ProcessLife.counter, hout]

/-- The rows kept before a life, latest first. -/
theorem latestFirst_rows (h : w.Inv) {name : Option String} {host : String} {lives : List ProcessLife}
    (hslot : lives.Sublist (w.slot name host)) :
    (lives.map ProcessLife.row).Pairwise fun a b => b.startedOn < a.startedOn := by
  rw [List.pairwise_map]
  exact ((h.order name host).sublist hslot).imp And.left

/-- `streak`: the rows kept of the lives that crashed in a row. -/
theorem streak_rows (h : w.Inv) (hme : w.Counting me older start) (hsplit : Split older kept lost rest) :
    CrashCounter.streak (w.table.filter ((me.counter start).inSlot me.row)) = kept.map ProcessLife.row := by
  rw [slot_rows h hme]
  have hsorted : ((older.filter ProcessLife.kept).map ProcessLife.row).Pairwise fun a b => b.startedOn < a.startedOn :=
    latestFirst_rows h (hme.slot ▸ List.filter_sublist.trans (List.sublist_cons_self _ _))
  rw [CrashCounter.streak, CrashCounter.boundary,
    filter_after_latest InstanceRow.startedOn (fun i => i.stoppedOn.isSome) hsorted, List.takeWhile_map]
  congr 1
  have hkept : kept.filter ProcessLife.kept = kept := List.filter_eq_self.mpr fun x hx => (hsplit.ofKept x hx).2
  have hlost : lost.filter ProcessLife.kept = [] :=
    List.filter_eq_nil_iff.mpr fun x hx => by simp [(hsplit.ofLost x hx).2]
  rw [hsplit.eq, List.filter_append, List.filter_append, hkept, hlost, List.nil_append]
  have hrunning : ∀ x ∈ kept, ((fun i : InstanceRow => !i.stoppedOn.isSome) ∘ ProcessLife.row) x = true := fun x hx => by
    have hstopped := crashed_not_stopped (hsplit.ofKept x hx).1
    simpa [ProcessLife.stopped] using hstopped
  rw [List.takeWhile_append_of_pos hrunning]
  -- the last stop ends it, or no row of that stop or an earlier life is left
  cases hrest : rest with
  | nil => simp
  | cons s before =>
    obtain ⟨hstopped, hgone⟩ := hsplit.stop s before hrest
    cases hskept : s.kept with
    | true =>
      have hne : s.row.stoppedOn ≠ none := Option.isSome_iff_ne_none.mp hstopped
      rw [List.filter_cons_of_pos hskept, List.takeWhile_cons_of_neg (by simp [hne]), List.append_nil]
    | false =>
      have hnone : before.filter ProcessLife.kept = [] :=
        List.filter_eq_nil_iff.mpr fun x hx => by simp [hgone hskept x hx]
      rw [List.filter_cons_of_neg (by simp [hskept]), hnone, List.takeWhile_nil, List.append_nil]

/-- `crashed`: those of them that are dead. -/
theorem crashed_rows (h : w.Inv) (hme : w.Counting me older start) (hsplit : Split older kept lost rest) :
    (me.counter start).crashed now me.row w.table = (kept.filter fun x => (me.counter start).dead now x.row).map ProcessLife.row := by
  rw [CrashCounter.crashed, streak_rows h hme hsplit, List.filter_map]
  rfl

theorem kept_sublist (hslot : w.slot me.row.name me.row.host = me :: older) (hsplit : Split older kept lost rest) :
    kept.Sublist (w.slot me.row.name me.row.host) := by
  rw [hslot, hsplit.eq]
  exact (List.sublist_append_left _ _).trans (List.sublist_cons_self _ _)

theorem startedBefore_of_lt {i j : InstanceRow} (h : j.startedOn < i.startedOn) : j.startedBefore i = true ∧ i.startedBefore j = false := by
  constructor
  · exact decide_eq_true (Prod.Lex.toLex_lt_toLex.mpr (.inl h))
  · refine decide_eq_false fun hlt => ?_
    rcases Prod.Lex.toLex_lt_toLex.mp hlt with hlt | ⟨heq, -⟩
    · exact lt_asymm h hlt
    · exact absurd heq h.ne'

theorem startedBefore_self (i : InstanceRow) : i.startedBefore i = false := decide_eq_false (lt_irrefl _)

/-- Some of the rows kept are held latest first in the order of the statement. -/
theorem latestFirst (h : w.Inv) {name : Option String} {host : String} {lives : List ProcessLife}
    (hsub : lives.Sublist (w.slot name host)) : LatestFirst InstanceRow.startedBefore (lives.map ProcessLife.row) :=
  (latestFirst_rows h hsub).imp startedBefore_of_lt

/-- `head`: the last held. -/
theorem head_rows (h : w.Inv) {name : Option String} {host : String} {lives : List ProcessLife}
    (hsub : lives.Sublist (w.slot name host)) :
    CrashCounter.head (lives.map ProcessLife.row) = (lives.getLast?).map ProcessLife.row := by
  rw [CrashCounter.head, find?_first (latestFirst h hsub) fun i _ => startedBefore_self i, List.getLast?_map]

theorem number_rows (h : w.Inv) {name : Option String} {host : String} (hsub : (newer ++ x :: older).Sublist (w.slot name host)) :
    rowsBefore InstanceRow.startedBefore ((newer ++ x :: older).map ProcessLife.row) x.row = older.length := by
  have hfirst := latestFirst h hsub
  rw [List.map_append, List.map_cons] at hfirst ⊢
  rw [rowsBefore_append hfirst (startedBefore_self _), List.length_map]

/-- The row of a life is among those of others if it is one of them. -/
theorem mem_rows (h : w.Inv) (hx : x ∈ w.lives) {lives : List ProcessLife} (hlives : ∀ y ∈ lives, y ∈ w.lives) :
    x.row ∈ lives.map ProcessLife.row ↔ x ∈ lives := by
  refine ⟨fun hin => ?_, fun hin => List.mem_map_of_mem hin⟩
  obtain ⟨y, hy, hrow⟩ := List.mem_map.mp hin
  exact eq_of_row h (hlives y hy) hx hrow ▸ hy

/-- Where all the lives that crashed in a row are dead, a count has their number for the life that counts. -/
theorem count_me (h : w.Inv) (hme : w.Counting me older start) (hsplit : Split older kept lost rest)
    (hdead : ∀ x ∈ kept, (me.counter start).dead now x.row = true) :
    (CrashCounter.countRow me.row ((me.counter start).crashed now me.row w.table) me.row).crashRestarts = (crashRun older : Int) := by
  have hall : (kept.filter fun x => (me.counter start).dead now x.row) = kept := List.filter_eq_self.mpr hdead
  have hcounts : ∀ crashed, CrashCounter.counts me.row crashed me.row = true := fun _ => by simp [CrashCounter.counts]
  rw [crashed_rows h hme hsplit, hall, CrashCounter.countRow, if_pos (hcounts _), head_rows h (kept_sublist hme.slot hsplit),
    hsplit.crashRun]
  by_cases hne : kept ++ lost = []
  · obtain ⟨rfl, rfl⟩ := List.append_eq_nil_iff.mp hne
    rfl
  · obtain ⟨newer, b, rfl, -, hfirst⟩ := hsplit.first (Right.tail (hme.slot ▸ (h.slots _ _).1)) hne
    simp [hfirst]
    ring

/-- Where those before it are dead, it has the number of a crashed life but the first. -/
theorem count_crashed (h : w.Inv) (hme : w.Counting me older start)
    (hsplit : Split older (newer ++ b :: x :: kept) lost rest) (hb : (me.counter start).dead now b.row = true)
    (hdead : ∀ y ∈ x :: kept, (me.counter start).dead now y.row = true) :
    (CrashCounter.countRow me.row ((me.counter start).crashed now me.row w.table) b.row).crashRestarts =
      ((x :: kept ++ lost).length : Int) := by
  have hsub := kept_sublist hme.slot hsplit
  have hbin : b ∈ newer ++ b :: x :: kept := List.mem_append_right _ List.mem_cons_self
  have hne : b.row.id ≠ me.row.id :=
    older_id h hme.slot hme.kept (hsplit.eq ▸ List.mem_append_left _ hbin) (hsplit.ofKept b hbin).2
  have hfilter : ((newer ++ b :: x :: kept).filter fun y => (me.counter start).dead now y.row) =
      (newer.filter fun y => (me.counter start).dead now y.row) ++ b :: x :: kept := by
    have hrest : (b :: x :: kept).filter (fun y => (me.counter start).dead now y.row) = b :: x :: kept :=
      List.filter_eq_self.mpr (List.forall_mem_cons.mpr ⟨hb, hdead⟩)
    rw [List.filter_append, hrest]
  have hsub' : ((newer.filter fun y => (me.counter start).dead now y.row) ++ b :: x :: kept).Sublist (w.slot me.row.name me.row.host) :=
    (List.filter_sublist.append_right _).trans hsub
  have hnumber := number_rows h hsub'
  have hmem : b.row ∈ ((newer.filter fun y => (me.counter start).dead now y.row) ++ b :: x :: kept).map ProcessLife.row := by simp
  have hcounts : CrashCounter.counts me.row
      (((newer.filter fun y => (me.counter start).dead now y.row) ++ b :: x :: kept).map ProcessLife.row) b.row = true := by
    rw [CrashCounter.counts, hnumber, decide_eq_true hmem, Bool.true_and, Bool.or_eq_true]
    exact .inr (decide_eq_true (Nat.succ_pos _))
  obtain ⟨newer', first, heq, -, hfirst⟩ := hsplit.first (Right.tail (hme.slot ▸ (h.slots _ _).1)) (by simp)
  have hlast : (x :: kept).getLast? = some first := by
    have hwhole : (newer ++ b :: x :: kept).getLast? = some first := by rw [heq, List.getLast?_append]; rfl
    simpa [List.getLast?_append, List.getLast?_cons_cons] using hwhole
  have hhead : CrashCounter.head (((newer.filter fun y => (me.counter start).dead now y.row) ++ b :: x :: kept).map ProcessLife.row) =
      some first.row := by
    rw [head_rows h hsub', List.getLast?_append, List.getLast?_cons_cons, hlast]
    rfl
  rw [crashed_rows h hme hsplit, hfilter, CrashCounter.countRow, if_pos hcounts, hhead]
  simp only
  rw [if_neg hne, hnumber, hfirst]
  simp
  ring

/-- Behind the latest life of a name and host, all are over. -/
theorem older_ended (h : w.Inv) {name : Option String} {host : String} (hslot : w.slot name host = x :: older) :
    ∀ y ∈ older, y.ended = true := by
  obtain ⟨-, ⟨kept, lost, rest, hsplit⟩ | ⟨x', older', kept, lost, rest, hslot', -, hsplit, -⟩⟩ := h.slots name host
  · exact fun y hy => hsplit.ended y (hslot ▸ List.mem_cons_of_mem _ hy)
  · obtain ⟨rfl, rfl⟩ := List.cons.inj (hslot.symm.trans hslot')
    exact hsplit.ended

theorem slot_map {w' : InstanceHistory} {f : ProcessLife → ProcessLife} (hlives : w'.lives = w.lives.map f)
    (hf : ∀ x ∈ w.lives, (f x).row.name = x.row.name ∧ (f x).row.host = x.row.host) (name : Option String) (host : String) :
    w'.slot name host = (w.slot name host).map f := by
  rw [slot, slot, hlives, List.filter_map]
  congr 1
  refine List.filter_congr fun x hx => ?_
  simp only [Function.comp_apply, (hf x hx).1, (hf x hx).2]

/-- A change of lives, one by one, that leaves who they are and when they started, and of those over the last beat. -/
theorem Inv.map (h : w.Inv) {w' : InstanceHistory} {f : ProcessLife → ProcessLife} (hlives : w'.lives = w.lives.map f)
    (hrows : w'.table = (w'.lives.filter ProcessLife.kept).map ProcessLife.row)
    (hf : ∀ x ∈ w.lives, (f x).row.id = x.row.id ∧ (f x).row.name = x.row.name ∧ (f x).row.host = x.row.host ∧
      ((f x).kept = true → x.kept = true) ∧ (f x).row.startedOn = x.row.startedOn)
    (hbeat : ∀ x ∈ w.lives, x.row.heartbeatOn ≤ (f x).row.heartbeatOn ∧ (x.ended = true → (f x).row.heartbeatOn = x.row.heartbeatOn))
    (hslots : ∀ name host, SlotInv ((w.slot name host).map f)) : w'.Inv := by
  have hslot := slot_map hlives fun x hx => ⟨(hf x hx).2.1, (hf x hx).2.2.1⟩
  refine ⟨hrows, ?_, fun name host => ?_, fun name host => hslot name host ▸ hslots name host⟩
  · rw [hlives, List.pairwise_map]
    refine h.ids.imp_of_mem fun {a b} ha hb hab hid => ?_
    rw [(hf a ha).1, (hf b hb).1] at hid
    exact Bool.eq_false_iff.mpr fun hkept => Bool.eq_false_iff.mp (hab hid) ((hf b hb).2.2.2.1 hkept)
  · rw [hslot]
    cases hlist : w.slot name host with
    | nil => exact List.Pairwise.nil
    | cons x older =>
      have hpairs := h.order name host
      have hended := older_ended h hlist
      have hin : ∀ y ∈ x :: older, y ∈ w.lives := fun y hy => (mem_slot.mp (hlist ▸ hy)).1
      -- the lives behind the latest are over, and beat no more
      have hsame : ∀ y ∈ older, (f y).row.startedOn = y.row.startedOn ∧ (f y).row.heartbeatOn = y.row.heartbeatOn := fun y hy =>
        ⟨(hf y (hin y (List.mem_cons_of_mem _ hy))).2.2.2.2, (hbeat y (hin y (List.mem_cons_of_mem _ hy))).2 (hended y hy)⟩
      rw [hlist, List.pairwise_cons] at hpairs
      rw [List.map_cons, List.pairwise_cons]
      constructor
      · intro z hz
        obtain ⟨y, hy, rfl⟩ := List.mem_map.mp hz
        rw [(hsame y hy).1, (hsame y hy).2, (hf x (hin x List.mem_cons_self)).2.2.2.2]
        exact hpairs.1 y hy
      · rw [List.pairwise_map]
        refine hpairs.2.imp_of_mem fun {a b} ha hb hab => ?_
        rw [(hsame b hb).1, (hsame b hb).2, (hsame a ha).1]
        exact hab

section Counted

/-- A row counted for a life before is that of a crashed one, not the first of them. -/
theorem counted_kept (h : w.Inv) (hme : w.Counting me older start) (hsplit : Split older kept lost rest) (hx : x ∈ w.lives)
    (hcounts : CrashCounter.counts me.row ((me.counter start).crashed now me.row w.table) x.row = true) (hne : x.row.id ≠ me.row.id) :
    ∃ newer y kept', kept = newer ++ x :: y :: kept' ∧ (me.counter start).dead now x.row = true := by
  rw [CrashCounter.counts, decide_eq_false hne, Bool.false_or, Bool.and_eq_true, decide_eq_true_eq, decide_eq_true_eq,
    crashed_rows h hme hsplit] at hcounts
  have hsub := kept_sublist hme.slot hsplit
  have hin : ∀ y ∈ kept.filter (fun x => (me.counter start).dead now x.row), y ∈ w.lives := fun y hy =>
    (mem_slot.mp (hsub.subset (List.mem_of_mem_filter hy))).1
  obtain ⟨hkept, hdead⟩ := List.mem_filter.mp ((mem_rows h hx hin).mp hcounts.1)
  obtain ⟨newer, behind, rfl⟩ := List.append_of_mem hkept
  cases behind with
  | nil =>
    have hlast : ((newer ++ [x]).filter fun x => (me.counter start).dead now x.row) = (newer.filter fun x => (me.counter start).dead now x.row) ++ [x] := by
      simp [List.filter_append, hdead]
    have hnumber := number_rows h (hlast ▸ List.filter_sublist.trans hsub)
    rw [hlast, hnumber] at hcounts
    exact absurd hcounts.2 (lt_irrefl _)
  | cons y behind => exact ⟨newer, y, behind, rfl, hdead⟩

variable (w me now start) in
theorem counted_fields (x : ProcessLife) : (w.counted now start me x).row.id = x.row.id ∧ (w.counted now start me x).row.name = x.row.name ∧
    (w.counted now start me x).row.host = x.row.host ∧ (w.counted now start me x).row.startedOn = x.row.startedOn ∧ (w.counted now start me x).row.heartbeatOn = x.row.heartbeatOn ∧
    (w.counted now start me x).ended = x.ended ∧ (w.counted now start me x).stopped = x.stopped ∧ (w.counted now start me x).kept = x.kept := by
  have hrow : ∀ crashed i, (CrashCounter.countRow me.row crashed i).id = i.id ∧ (CrashCounter.countRow me.row crashed i).name = i.name ∧
      (CrashCounter.countRow me.row crashed i).host = i.host ∧ (CrashCounter.countRow me.row crashed i).startedOn = i.startedOn ∧
      (CrashCounter.countRow me.row crashed i).heartbeatOn = i.heartbeatOn ∧
      (CrashCounter.countRow me.row crashed i).stoppedOn = i.stoppedOn := by
    intro crashed i
    unfold CrashCounter.countRow
    split
    · split <;> exact ⟨rfl, rfl, rfl, rfl, rfl, rfl⟩
    · exact ⟨rfl, rfl, rfl, rfl, rfl, rfl⟩
  obtain ⟨hid, hname, hhost, hstarted, hbeat, hstopped⟩ := hrow ((me.counter start).crashed now me.row w.table) x.row
  cases hcounts : x.kept && CrashCounter.counts me.row ((me.counter start).crashed now me.row w.table) x.row with
  | true => simp [counted, hcounts, hid, hname, hhost, hstarted, hbeat, ProcessLife.stopped, hstopped]
  | false => simp [counted, hcounts]

theorem counted_of_not (hnot : (x.kept && CrashCounter.counts me.row ((me.counter start).crashed now me.row w.table) x.row) = false) :
    w.counted now start me x = x := by
  simp [counted, hnot]

/-- A kept row, behind a count. -/
theorem counted_row (hkept : x.kept = true) :
    (w.counted now start me x).row = CrashCounter.countRow me.row ((me.counter start).crashed now me.row w.table) x.row := by
  cases hcounts : CrashCounter.counts me.row ((me.counter start).crashed now me.row w.table) x.row with
  | true => simp [counted, hkept, hcounts]
  | false => simp [counted, hkept, hcounts, CrashCounter.countRow]

theorem crashRun_counted (lives : List ProcessLife) : crashRun (lives.map (w.counted now start me)) = crashRun lives := by
  rw [crashRun, crashRun, List.takeWhile_map, List.length_map]
  congr 2
  funext x
  obtain ⟨-, -, -, -, -, hended, hstopped, -⟩ := counted_fields w me now start x
  simp only [Function.comp_apply, ProcessLife.crashed, hended, hstopped]

end Counted

end World

end InstanceHistory

end PgBoss
