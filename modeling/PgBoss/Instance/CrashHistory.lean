import PgBoss.Instance.CrashCount

/-!
# Crash restarts along histories of lives

What each event leaves of a slot: the running life of it starts, stops or crashes, a count corrects rows, and maintenance
deletes from the earliest row on.
-/

namespace PgBoss

open Relational

namespace InstanceHistory

section Lists

variable {S lives kept lost rest newer older ahead : List ProcessLife} {x b y : ProcessLife} {f : ProcessLife → ProcessLife}

theorem crashRun_map (hf : ∀ x ∈ lives, (f x).crashed = x.crashed) : crashRun (lives.map f) = crashRun lives := by
  induction lives with
  | nil => rfl
  | cons x lives ih =>
    have hx := hf x List.mem_cons_self
    have hrest := ih fun y hy => hf y (List.mem_cons_of_mem _ hy)
    rw [crashRun, crashRun] at hrest
    rw [crashRun, crashRun, List.map_cons, List.takeWhile_cons, List.takeWhile_cons, hx]
    cases x.crashed with
    | true => simp only [if_true, List.length_cons, hrest]
    | false => rfl

/-- A change that leaves the numbers, and how the lives before those with a row ended. -/
theorem Right.map (h : Right S) (hcrashed : ∀ x ∈ S, x.ended = true → (f x).crashed = x.crashed)
    (hended : ∀ x older, S = x :: older → ∀ y ∈ older, y.ended = true)
    (hf : ∀ x ∈ S, (f x).kept = true → (f x).numbered = true →
      x.kept = true ∧ x.numbered = true ∧ (f x).row.crashRestarts = x.row.crashRestarts) : Right (S.map f) := by
  intro newer' b' older' heq hkept hnumbered
  obtain ⟨newer, behind, rfl, -, hbehind⟩ := List.map_eq_append_iff.mp heq
  obtain ⟨b, older, rfl, rfl, rfl⟩ := List.map_eq_cons_iff.mp hbehind
  have hb : b ∈ newer ++ b :: older := List.mem_append_right _ List.mem_cons_self
  obtain ⟨hkept', hnumbered', hcount⟩ := hf b hb hkept hnumbered
  have holder : ∀ x ∈ older, x.ended = true := by
    cases newer with
    | nil => exact hended b older rfl
    | cons a newer => exact fun x hx => hended a _ rfl x (List.mem_append_right _ (List.mem_cons_of_mem _ hx))
  have hrun := crashRun_map fun x hx => hcrashed x (List.mem_append_right _ (List.mem_cons_of_mem _ hx)) (holder x hx)
  rw [hcount, hrun]
  exact h newer b older rfl hkept' hnumbered'

theorem SlotInv.ended (h : SlotInv S) : ∀ x older, S = x :: older → ∀ y ∈ older, y.ended = true := by
  rintro x older rfl
  obtain ⟨-, ⟨kept, lost, rest, hsplit⟩ | ⟨x', older', kept, lost, rest, heq, -, hsplit, -⟩⟩ := h
  · exact fun y hy => hsplit.ended y (List.mem_cons_of_mem _ hy)
  · obtain ⟨rfl, rfl⟩ := List.cons.inj heq
    exact hsplit.ended

/-- A life that starts where all are over holds its number where the latest of them did not crash. -/
theorem SlotInv.start (h : SlotInv S) (hended : ∀ y ∈ S, y.ended = true) (hrunning : x.ended = false) (hkept : x.kept = true)
    (hstopped : x.stopped = false) (hcount : x.row.crashRestarts = 0) (hnumbered : x.numbered = S.head?.all fun y => !y.crashed) :
    SlotInv (x :: S) := by
  constructor
  · intro newer b older heq hkept' hnumbered'
    cases newer with
    | nil =>
      obtain ⟨rfl, rfl⟩ := List.cons.inj heq
      rw [hcount]
      cases S with
      | nil => rfl
      | cons y S =>
        rw [hnumbered] at hnumbered'
        simp [crashRun, show y.crashed = false by simpa using hnumbered']
    | cons a newer =>
      obtain ⟨-, rfl⟩ := List.cons.inj heq
      exact h.1 newer b older rfl hkept' hnumbered'
  · right
    obtain ⟨-, ⟨kept, lost, rest, hsplit⟩ | ⟨y, older, -, -, -, rfl, ⟨hy, -, -⟩, -, -⟩⟩ := h
    · refine ⟨x, S, kept, lost, rest, rfl, ⟨hrunning, hkept, hstopped⟩, hsplit, fun hnil => ?_⟩
      obtain ⟨rfl, rfl⟩ := List.append_eq_nil_iff.mp hnil
      rw [hnumbered, hsplit.eq]
      cases rest with
      | nil => rfl
      | cons s older => simp [not_crashed_of_stopped (hsplit.stop s older rfl).1]
    · rw [hended y List.mem_cons_self] at hy
      cases hy

theorem Right.head (h : Right (x :: older)) (hf : y.kept = x.kept ∧ y.numbered = x.numbered ∧ y.row.crashRestarts = x.row.crashRestarts) :
    Right (y :: older) := by
  intro newer b behind heq hkept hnumbered
  cases newer with
  | nil =>
    obtain ⟨rfl, rfl⟩ := List.cons.inj heq
    rw [hf.2.2]
    exact h [] x older rfl (hf.1 ▸ hkept) (hf.2.1 ▸ hnumbered)
  | cons a newer =>
    obtain ⟨-, rfl⟩ := List.cons.inj heq
    exact h (x :: newer) b behind rfl hkept hnumbered

/-- Behind a life under way. -/
theorem SlotInv.running (h : SlotInv (x :: older)) (hrunning : x.ended = false) : (x.kept = true ∧ x.stopped = false) ∧
    ∃ kept lost rest, Split older kept lost rest ∧ (kept ++ lost = [] → x.numbered = true) := by
  obtain ⟨-, ⟨kept, lost, rest, hsplit⟩ | ⟨x', older', kept, lost, rest, heq, ⟨-, hx⟩, hsplit⟩⟩ := h
  · rw [hsplit.ended x List.mem_cons_self] at hrunning
    cases hrunning
  · obtain ⟨rfl, rfl⟩ := List.cons.inj heq
    exact ⟨hx, kept, lost, rest, hsplit⟩

/-- The life under way goes on. -/
theorem SlotInv.goOn (h : SlotInv (x :: older)) (hrunning : x.ended = false) (hended : y.ended = false) (hstopped : y.stopped = x.stopped)
    (hf : y.kept = x.kept ∧ y.numbered = x.numbered ∧ y.row.crashRestarts = x.row.crashRestarts) : SlotInv (y :: older) := by
  obtain ⟨⟨hkept, hx⟩, kept, lost, rest, hsplit, hnumbered⟩ := h.running hrunning
  exact ⟨h.1.head hf, .inr ⟨y, older, kept, lost, rest, rfl, ⟨hended, hf.1.trans hkept, hstopped.trans hx⟩, hsplit,
    fun hnil => hf.2.1.trans (hnumbered hnil)⟩⟩

/-- It stops. -/
theorem SlotInv.stop (h : SlotInv (x :: older)) (hrunning : x.ended = false) (hended : y.ended = true) (hstopped : y.stopped = true)
    (hf : y.kept = x.kept ∧ y.numbered = x.numbered ∧ y.row.crashRestarts = x.row.crashRestarts) : SlotInv (y :: older) := by
  obtain ⟨⟨hkept, -⟩, kept, lost, rest, hsplit, -⟩ := h.running hrunning
  refine ⟨h.1.head hf, .inl ⟨[], [], y :: older, rfl, by simp, by simp, ?_, ?_, fun hne => absurd rfl hne⟩⟩
  · intro z hz
    rcases List.mem_cons.mp hz with rfl | hz
    · exact hended
    · exact hsplit.ended z hz
  · rintro s before heq
    obtain ⟨rfl, rfl⟩ := List.cons.inj heq
    refine ⟨hstopped, fun hlost => ?_⟩
    rw [hf.1, hkept] at hlost
    cases hlost

/-- It crashes. -/
theorem SlotInv.crash (h : SlotInv (x :: older)) (hrunning : x.ended = false) (hended : y.ended = true) (hstopped : y.stopped = x.stopped)
    (hf : y.kept = x.kept ∧ y.numbered = x.numbered ∧ y.row.crashRestarts = x.row.crashRestarts) : SlotInv (y :: older) := by
  obtain ⟨⟨hkept, hx⟩, kept, lost, rest, hsplit, hnumbered⟩ := h.running hrunning
  have hcrashed : y.crashed = true := by simp [ProcessLife.crashed, hended, hstopped, hx]
  refine ⟨h.1.head hf, .inl ⟨y :: kept, lost, rest, by rw [hsplit.eq]; rfl, ?_, hsplit.ofLost, hsplit.ofRest, hsplit.stop, fun _ => ?_⟩⟩
  · intro z hz
    rcases List.mem_cons.mp hz with rfl | hz
    · exact ⟨hcrashed, hf.1.trans hkept⟩
    · exact hsplit.ofKept z hz
  · by_cases hnil : kept ++ lost = []
    · obtain ⟨rfl, rfl⟩ := List.append_eq_nil_iff.mp hnil
      exact ⟨[], y, rfl, hf.2.1.trans (hnumbered rfl)⟩
    · obtain ⟨newer, b, rfl, hb⟩ := hsplit.numbered hnil
      exact ⟨y :: newer, b, rfl, hb⟩

section Delete

variable {deleted : InstanceRow → Bool}

/-- A life whose row may be deleted. -/
def keepLess (deleted : InstanceRow → Bool) (x : ProcessLife) : ProcessLife := { x with kept := x.kept && !deleted x.row }

/-- Where deletions of a slot take from no count. -/
def HarmlessIn (deleted : InstanceRow → Bool) (S : List ProcessLife) : Prop :=
  ∀ newer x older, S = newer ++ x :: older → x.kept = true → deleted x.row = true →
    (∃ y ∈ newer, y.stopped = true ∧ y.kept = true ∧ deleted y.row = false) ∨
      x.ended = true ∧ (∀ y ∈ older, y.kept = true → deleted y.row = true) ∧
        (x.stopped = true ∨ newer.getLast?.any fun y => y.ended && (!y.kept || deleted y.row || y.numbered))

theorem keepLess_kept (hkept : (keepLess deleted x).kept = true) : x.kept = true ∧ deleted x.row = false := by
  simpa [keepLess] using hkept

/-- Where no life ahead of the row stopped, all the rows before it go, and its next life is over and goes or is numbered. -/
theorem HarmlessIn.earlier (h : HarmlessIn deleted (newer ++ x :: older)) (hnewer : ∀ y ∈ newer, y.stopped = false) (hkept : x.kept = true)
    (hdeleted : deleted x.row = true) : (∀ y ∈ older, y.kept = true → deleted y.row = true) ∧
      (x.stopped = false → ∃ ahead y, newer = ahead ++ [y] ∧ y.ended = true ∧ (y.kept = true → deleted y.row = true ∨ y.numbered = true)) := by
  rcases h newer x older rfl hkept hdeleted with ⟨y, hy, hstopped, -⟩ | ⟨-, hbefore, hnext⟩
  · rw [hnewer y hy] at hstopped
    cases hstopped
  · refine ⟨hbefore, fun hrunning => ?_⟩
    rcases hnext with hstopped | hnext
    · rw [hrunning] at hstopped
      cases hstopped
    · obtain ⟨y, hlast, hy⟩ := (Option.any_eq_true _ _).mp hnext
      obtain ⟨ahead, rfl⟩ := List.getLast?_eq_some_iff.mp hlast
      rw [Bool.and_eq_true, Bool.or_eq_true, Bool.or_eq_true, Bool.not_eq_true'] at hy
      refine ⟨ahead, y, rfl, hy.1, fun hkept => ?_⟩
      simpa [hkept] using hy.2

/-- The rows of a split that go are held behind those that stay, of which the earliest is numbered. -/
theorem Split.staying (h : Split lives kept lost rest) (hahead : ∀ y ∈ ahead, y.stopped = false ∧ y.ended = false)
    (hharmless : HarmlessIn deleted (ahead ++ lives)) :
    ∃ stay gone, kept = stay ++ gone ∧ (∀ y ∈ stay, deleted y.row = false) ∧ (∀ y ∈ gone, deleted y.row = true) ∧
      (gone ≠ [] → ∃ newer b, stay = newer ++ [b] ∧ b.numbered = true) := by
  cases hfind : kept.find? fun y => deleted y.row with
  | none =>
    refine ⟨kept, [], by simp, fun y hy => ?_, fun y hy => absurd hy List.not_mem_nil, fun hne => absurd rfl hne⟩
    simpa using List.find?_eq_none.mp hfind y hy
  | some x =>
    obtain ⟨hdeleted, stay, behind, rfl, hstay⟩ := List.find?_eq_some_iff_append.mp hfind
    have hx := h.ofKept x (List.mem_append_right _ List.mem_cons_self)
    have heq : ahead ++ lives = (ahead ++ stay) ++ x :: (behind ++ (lost ++ rest)) := by simp [h.eq]
    have hnewer : ∀ y ∈ ahead ++ stay, y.stopped = false := by
      intro y hy
      rcases List.mem_append.mp hy with hy | hy
      · exact (hahead y hy).1
      · exact crashed_not_stopped (h.ofKept y (List.mem_append_left _ hy)).1
    rw [heq] at hharmless
    obtain ⟨hbehind, hnext⟩ := hharmless.earlier hnewer hx.2 hdeleted
    obtain ⟨newer, b, hsplit, hended, hb⟩ := hnext (crashed_not_stopped hx.1)
    refine ⟨stay, x :: behind, rfl, fun y hy => by simpa using hstay y hy, fun y hy => ?_, fun _ => ?_⟩
    · rcases List.mem_cons.mp hy with rfl | hy
      · exact hdeleted
      · have hkept := h.ofKept y (List.mem_append_right _ (List.mem_cons_of_mem _ hy))
        exact hbehind y (List.mem_append_left _ hy) hkept.2
    · rcases List.eq_nil_or_concat stay with rfl | ⟨stay', b', rfl⟩
      · -- the next life would be the one under way
        have hb' := hahead b (by rw [List.append_nil] at hsplit; simp [hsplit])
        rw [hended] at hb'
        cases hb'.2
      · rw [List.concat_eq_append, ← List.append_assoc] at hsplit
        obtain ⟨-, hlast⟩ := List.append_inj' hsplit rfl
        obtain rfl : b' = b := by simpa using hlast
        rw [List.concat_eq_append] at hstay h ⊢
        have hmem : b' ∈ stay' ++ [b'] := List.mem_append_right _ List.mem_cons_self
        refine ⟨stay', b', rfl, (hb (h.ofKept b' (List.mem_append_left _ hmem)).2).resolve_left fun hgone => ?_⟩
        have hnot := hstay b' hmem
        rw [hgone] at hnot
        cases hnot

/-- Rows are deleted from the earliest on. -/
theorem Split.delete (h : Split lives kept lost rest) (hahead : ∀ y ∈ ahead, y.stopped = false ∧ y.ended = false)
    (hharmless : HarmlessIn deleted (ahead ++ lives)) :
    ∃ kept' lost' rest', Split (lives.map (keepLess deleted)) kept' lost' rest' ∧ (kept' ++ lost' = [] → kept ++ lost = []) := by
  obtain ⟨stay, gone, rfl, hstay, hgone, hlast⟩ := h.staying hahead hharmless
  refine ⟨stay.map (keepLess deleted), (gone ++ lost).map (keepLess deleted), rest.map (keepLess deleted), ⟨?_, ?_, ?_, ?_, ?_, ?_⟩, ?_⟩
  · simp [h.eq]
  · intro z hz
    obtain ⟨y, hy, rfl⟩ := List.mem_map.mp hz
    obtain ⟨hcrashed, hkept⟩ := h.ofKept y (List.mem_append_left _ hy)
    exact ⟨hcrashed, by simp [keepLess, hkept, hstay y hy]⟩
  · intro z hz
    obtain ⟨y, hy, rfl⟩ := List.mem_map.mp hz
    rcases List.mem_append.mp hy with hy | hy
    · exact ⟨(h.ofKept y (List.mem_append_right _ hy)).1, by simp [keepLess, hgone y hy]⟩
    · exact ⟨(h.ofLost y hy).1, by simp [keepLess, (h.ofLost y hy).2]⟩
  · intro z hz
    obtain ⟨y, hy, rfl⟩ := List.mem_map.mp hz
    exact h.ofRest y hy
  · intro s' older' heq
    obtain ⟨s, older, rfl, rfl, rfl⟩ := List.map_eq_cons_iff.mp heq
    obtain ⟨hstopped, hkeptgone⟩ := h.stop s older rfl
    refine ⟨hstopped, fun hlost z hz => ?_⟩
    obtain ⟨x, hx, rfl⟩ := List.mem_map.mp hz
    cases hskept : s.kept with
    | false => simp [keepLess, hkeptgone hskept x hx]
    | true =>
      -- its row goes, and with it those of the lives before
      have hdeleted : deleted s.row = true := by simpa [keepLess, hskept] using hlost
      have heq : ahead ++ lives = (ahead ++ (stay ++ gone ++ lost)) ++ s :: older := by simp [h.eq]
      have hnewer : ∀ y ∈ ahead ++ (stay ++ gone ++ lost), y.stopped = false := by
        intro y hy
        rcases List.mem_append.mp hy with hy | hy
        · exact (hahead y hy).1
        · rcases List.mem_append.mp hy with hy | hy
          · exact crashed_not_stopped (h.ofKept y hy).1
          · exact crashed_not_stopped (h.ofLost y hy).1
      rw [heq] at hharmless
      cases hxkept : x.kept with
      | false => simp [keepLess, hxkept]
      | true => simp [keepLess, (hharmless.earlier hnewer hskept hdeleted).1 x hx hxkept]
  · intro hne
    by_cases hnil : gone = []
    · subst hnil
      have hne' : stay ++ [] ++ lost ≠ [] := by
        intro hnil
        rw [List.append_nil, List.append_eq_nil_iff] at hnil
        exact hne (by rw [hnil.1, hnil.2]; rfl)
      obtain ⟨newer, b, hkept, hnumbered⟩ := h.numbered hne'
      rw [List.append_nil] at hkept
      exact ⟨newer.map (keepLess deleted), keepLess deleted b, by simp [hkept], hnumbered⟩
    · obtain ⟨newer, b, rfl, hnumbered⟩ := hlast hnil
      exact ⟨newer.map (keepLess deleted), keepLess deleted b, by simp, hnumbered⟩
  · intro hnil
    simpa [and_assoc] using hnil

/-- Harmless deletions leave the numbers of a slot. -/
theorem SlotInv.delete (h : SlotInv S) (hharmless : HarmlessIn deleted S) : SlotInv (S.map (keepLess deleted)) := by
  refine ⟨h.1.map (fun _ _ _ => rfl) h.ended fun x _ hkept hnumbered => ⟨(keepLess_kept hkept).1, hnumbered, rfl⟩, ?_⟩
  obtain ⟨-, ⟨kept, lost, rest, hsplit⟩ | ⟨x, older, kept, lost, rest, rfl, ⟨hrunning, hkept, hstopped⟩, hsplit, hnumbered⟩⟩ := h
  · obtain ⟨kept', lost', rest', hsplit', -⟩ := hsplit.delete (fun y hy => absurd hy List.not_mem_nil) hharmless
    exact .inl ⟨kept', lost', rest', hsplit'⟩
  · have hahead : ∀ y ∈ [x], y.stopped = false ∧ y.ended = false := by simp [hstopped, hrunning]
    obtain ⟨kept', lost', rest', hsplit', hnil⟩ := Split.delete hsplit hahead (show HarmlessIn deleted ([x] ++ older) from hharmless)
    -- the row of the life under way stays
    have hstays : deleted x.row = false := by
      cases hdeleted : deleted x.row with
      | false => rfl
      | true =>
        rcases hharmless [] x older rfl hkept hdeleted with ⟨y, hy, -⟩ | ⟨hended, -⟩
        · exact absurd hy List.not_mem_nil
        · rw [hrunning] at hended
          cases hended
    refine .inr ⟨keepLess deleted x, older.map (keepLess deleted), kept', lost', rest', rfl, ⟨hrunning, ?_, hstopped⟩, hsplit',
      fun h => hnumbered (hnil h)⟩
    simp [keepLess, hkept, hstays]

end Delete

end Lists

section Steps

variable {w : InstanceHistory} {me x y : ProcessLife} {older kept lost rest : List ProcessLife} {now start : Timestamp}
  {id : Uuid} {name : Option String} {host : String} {pid heartbeatSeconds : Int}

theorem Inv.empty : Inv {} where
  rows := rfl
  ids := List.Pairwise.nil
  order _ _ := List.Pairwise.nil
  slots _ _ := ⟨fun newer b older heq => by simp [slot] at heq, .inl ⟨[], [], [], rfl, by simp, by simp, by simp, by simp, by simp⟩⟩

/-- Of an id one life is under way. -/
theorem eq_of_running (h : w.Inv) (hx : x ∈ w.lives) (hrunning : x.ended = false) (hy : y ∈ w.lives) (hid : y.row.id = x.row.id)
    (hyrunning : y.ended = false) : y = x := by
  obtain ⟨-, -, -, -, -, ⟨hkept, -⟩, -⟩ := slot_running h hx hrunning
  obtain ⟨-, -, -, -, -, ⟨hykept, -⟩, -⟩ := slot_running h hy hyrunning
  exact eq_of_id h hy hx hykept hkept hid

/-- What `setLife` changes in a slot: the life under way, held first. -/
theorem slot_setLife (h : w.Inv) (hx : x ∈ w.lives) (hrunning : x.ended = false) (f : ProcessLife → ProcessLife) (name : Option String)
    (host : String) : (∃ older, w.slot name host = x :: older ∧
        (w.slot name host).map (fun y => if y.row.id = x.row.id ∧ y.ended = false then f y else y) = f x :: older) ∨
      (w.slot name host).map (fun y => if y.row.id = x.row.id ∧ y.ended = false then f y else y) = w.slot name host := by
  by_cases hown : x.row.name = name ∧ x.row.host = host
  · obtain ⟨rfl, rfl⟩ := hown
    obtain ⟨older, -, -, -, hslot, -⟩ := slot_running h hx hrunning
    have hended := older_ended h hslot
    refine .inl ⟨older, hslot, ?_⟩
    rw [hslot, List.map_cons, if_pos ⟨rfl, hrunning⟩]
    congr 1
    conv_rhs => rw [← List.map_id older]
    refine List.map_congr_left fun y hy => if_neg fun hit => ?_
    rw [hended y hy] at hit
    cases hit.2
  · right
    conv_rhs => rw [← List.map_id (w.slot name host)]
    refine List.map_congr_left fun y hy => if_neg fun hit => hown ?_
    obtain ⟨hy, hname, hhost⟩ := mem_slot.mp hy
    obtain rfl := eq_of_running h hx hrunning hy hit.1 hit.2
    exact ⟨hname, hhost⟩

/-- An update of the row of the life under way. -/
theorem setLife_rows (h : w.Inv) (hx : x ∈ w.lives) (hrunning : x.ended = false) (f : ProcessLife → ProcessLife)
    (g : InstanceRow → InstanceRow) (hf : ∀ x, (f x).row = g x.row ∧ (f x).kept = x.kept) :
    (w.table.map fun i => if i.id = x.row.id then g i else i) =
      ((w.setLife x.row.id f).filter ProcessLife.kept).map ProcessLife.row := by
  obtain ⟨-, -, -, -, -, ⟨hxkept, -⟩, -⟩ := slot_running h hx hrunning
  have hkept : (ProcessLife.kept ∘ fun y => if y.row.id = x.row.id ∧ y.ended = false then f y else y) = ProcessLife.kept := by
    funext y
    by_cases hit : y.row.id = x.row.id ∧ y.ended = false <;> simp [hit, hf y]
  rw [h.rows, setLife, List.filter_map, List.map_map, List.map_map, hkept]
  refine List.map_congr_left fun y hy => ?_
  obtain ⟨hy, hykept⟩ := List.mem_filter.mp hy
  by_cases hid : y.row.id = x.row.id
  · obtain rfl := eq_of_id h hy hx hykept hxkept hid
    simp [hrunning, hf y]
  · simp [hid]

/-- A change of the life under way. -/
theorem Inv.setLife (h : w.Inv) {table : List InstanceRow} {f : ProcessLife → ProcessLife} (hx : x ∈ w.lives) (hrunning : x.ended = false)
    (htable : table = ((w.setLife x.row.id f).filter ProcessLife.kept).map ProcessLife.row)
    (hid : (f x).row.id = x.row.id ∧ (f x).row.name = x.row.name ∧ (f x).row.host = x.row.host ∧
      ((f x).kept = true → x.kept = true) ∧ (f x).row.startedOn = x.row.startedOn)
    (hbeat : x.row.heartbeatOn ≤ (f x).row.heartbeatOn) (hslot : ∀ older, SlotInv (x :: older) → SlotInv (f x :: older)) :
    Inv { table, lives := w.setLife x.row.id f } := by
  refine h.map (f := fun y => if y.row.id = x.row.id ∧ y.ended = false then f y else y) rfl htable (fun y hy => ?_)
    (fun y hy => ?_) fun name host => ?_
  · by_cases hit : y.row.id = x.row.id ∧ y.ended = false
    · obtain rfl := eq_of_running h hx hrunning hy hit.1 hit.2
      rw [if_pos hit]
      exact hid
    · rw [if_neg hit]
      exact ⟨rfl, rfl, rfl, id, rfl⟩
  · by_cases hit : y.row.id = x.row.id ∧ y.ended = false
    · obtain rfl := eq_of_running h hx hrunning hy hit.1 hit.2
      simpa [hrunning] using hbeat
    · simp [hit]
  · rcases slot_setLife h hx hrunning f name host with ⟨older, hheld, hmap⟩ | hmap
    · rw [hmap]
      exact hslot older (hheld ▸ h.slots name host)
    · rw [hmap]
      exact h.slots name host

theorem Inv.beat (h : w.Inv) (hx : x ∈ w.lives) (hrunning : x.ended = false) (hnow : x.row.heartbeatOn ≤ now) :
    (w.step (.beat now x.row.id)).Inv := by
  obtain ⟨older, -, -, -, -, ⟨hkept, -⟩, -⟩ := slot_running h hx hrunning
  have hany : (w.table.any fun i => i.id = x.row.id) = true :=
    List.any_eq_true.mpr ⟨x.row, (mem_table h).mpr ⟨x, hx, hkept, rfl⟩, decide_eq_true rfl⟩
  have hstep : w.step (.beat now x.row.id) =
      { table := w.table.map fun i => if i.id = x.row.id then { i with heartbeatOn := now } else i
        lives := w.setLife x.row.id fun x => { x with row := { x.row with heartbeatOn := now } } } := by
    simp only [step, life_eq h hx hkept, heartbeatInstance, hany, if_true]
  rw [hstep]
  refine h.setLife hx hrunning (setLife_rows h hx hrunning _ _ fun x => ⟨rfl, rfl⟩) ⟨rfl, rfl, rfl, fun hk => hk, rfl⟩ hnow
    fun older hslot => ?_
  exact hslot.goOn hrunning hrunning rfl ⟨rfl, rfl, rfl⟩

theorem Inv.stop (h : w.Inv) (hx : x ∈ w.lives) (hrunning : x.ended = false) : (w.step (.stop now x.row.id)).Inv := by
  refine h.setLife hx hrunning (setLife_rows h hx hrunning _ (fun i => { i with stoppedOn := some now }) fun x => ⟨rfl, rfl⟩)
    ⟨rfl, rfl, rfl, fun hk => hk, rfl⟩ le_rfl fun older hslot => ?_
  exact hslot.stop hrunning rfl rfl ⟨rfl, rfl, rfl⟩

theorem Inv.crash (h : w.Inv) (hx : x ∈ w.lives) (hrunning : x.ended = false) : (w.step (.crash x.row.id)).Inv := by
  have hrows : (w.table.map fun i => if i.id = x.row.id then i else i) =
      ((w.setLife x.row.id fun x => { x with ended := true }).filter ProcessLife.kept).map ProcessLife.row :=
    setLife_rows h hx hrunning _ (fun i => i) fun x => ⟨rfl, rfl⟩
  simp only [ite_self, List.map_id'] at hrows
  refine h.setLife hx hrunning hrows ⟨rfl, rfl, rfl, fun hk => hk, rfl⟩ le_rfl fun older hslot => ?_
  exact hslot.crash hrunning rfl rfl ⟨rfl, rfl, rfl⟩

/-- A count changes no life of another name or host. -/
theorem counted_other (h : w.Inv) (hcounting : w.Counting me older start) (hsplit : Split older kept lost rest) (hx : x ∈ w.lives)
    (hother : ¬ (x.row.name = me.row.name ∧ x.row.host = me.row.host)) : w.counted now start me x = x := by
  refine counted_of_not (Bool.eq_false_iff.mpr fun hcounts => hother ?_)
  obtain ⟨hxkept, hcounts⟩ := Bool.and_eq_true_iff.mp hcounts
  have hme : me ∈ w.lives := (mem_slot.mp (hcounting.slot ▸ List.mem_cons_self : me ∈ w.slot me.row.name me.row.host)).1
  have hne : x.row.id ≠ me.row.id := by
    intro hid
    obtain rfl := eq_of_id h hx hme hxkept hcounting.kept hid
    exact hother ⟨rfl, rfl⟩
  obtain ⟨newer, y, kept', rfl, -⟩ := counted_kept h hcounting hsplit hx hcounts hne
  have hin := (kept_sublist hcounting.slot hsplit).subset (List.mem_append_right newer List.mem_cons_self)
  exact ⟨(mem_slot.mp hin).2.1, (mem_slot.mp hin).2.2⟩

/-- Behind a count, a numbered row of the slot has its number. -/
theorem right_counted (h : w.Inv) (hcounting : w.Counting me older start) (hsplit : Split older kept lost rest) : Right ((me :: older).map (w.counted now start me)) := by
  have hslot := hcounting.slot
  intro newer' b' older' heq hbkept hbnumbered
  obtain ⟨newer, behind, hme, -, hbehind⟩ := List.map_eq_append_iff.mp heq
  obtain ⟨b, before, rfl, rfl, rfl⟩ := List.map_eq_cons_iff.mp hbehind
  rw [crashRun_counted]
  have hright := hslot ▸ (h.slots me.row.name me.row.host).1
  have hb : b ∈ w.lives := (mem_slot.mp (hslot ▸ hme ▸ List.mem_append_right newer List.mem_cons_self :
    b ∈ w.slot me.row.name me.row.host)).1
  have hbefore : w.before b = before := (around h (hslot.trans hme)).1
  cases hcounts : b.kept && CrashCounter.counts me.row ((me.counter start).crashed now me.row w.table) b.row with
  | false =>
    rw [counted_of_not hcounts] at hbkept hbnumbered ⊢
    exact hright newer b before hme hbkept hbnumbered
  | true =>
    obtain ⟨hbkept', hbcounts⟩ := Bool.and_eq_true_iff.mp hcounts
    have hdead : ∀ y ∈ before.takeWhile ProcessLife.crashed, y.dead now (me.counter start) = true := by
      simpa [counted, hcounts, hbefore] using hbnumbered
    have hdead' : ∀ y ∈ before.takeWhile ProcessLife.crashed, (me.counter start).dead now y.row = true := by
      intro y hy
      have hstopped := crashed_not_stopped (List.mem_takeWhile_imp hy)
      simpa [ProcessLife.dead, hstopped] using hdead y hy
    rw [counted_row hbkept']
    by_cases hid : b.row.id = me.row.id
    · obtain ⟨rfl, rfl⟩ : b = me ∧ before = older := by
        have hbme := eq_of_id h hb (mem_slot.mp (hslot ▸ List.mem_cons_self : me ∈ w.slot me.row.name me.row.host)).1 hbkept'
          hcounting.kept hid
        obtain rfl := hbme
        exact ⟨rfl, hbefore.symm.trans (before_latest h hslot)⟩
      refine count_me h hcounting hsplit fun y hy => hdead' y ?_
      rw [hsplit.takeWhile]
      exact List.mem_append_left _ hy
    · obtain ⟨newer', y, kept', rfl, hbdead⟩ := counted_kept h hcounting hsplit hb hbcounts hid
      have hplace : w.slot me.row.name me.row.host = (me :: newer') ++ b :: (y :: kept' ++ (lost ++ rest)) := by
        rw [hslot, hsplit.eq]
        simp
      obtain rfl : before = y :: kept' ++ (lost ++ rest) := hbefore.symm.trans (around h hplace).1
      have hrow := hsplit.before
      rw [count_crashed h hcounting hsplit hbdead fun z hz => hdead' z (hrow ▸ List.mem_append_left _ hz), crashRun, hrow]

/-- A life under way that takes none before it for another object of its process. -/
theorem counting (h : w.Inv) (hme : me ∈ w.lives) (hrunning : me.ended = false) (hseen : w.Seen (.count now start me.row.id))
    (hslot : w.slot me.row.name me.row.host = me :: older) : w.Counting me older start := by
  obtain ⟨-, -, -, -, -, ⟨hkept, -⟩, -⟩ := slot_running h hme hrunning
  exact ⟨hslot, hkept, before_latest h hslot ▸ hseen me hme rfl hrunning⟩

theorem Inv.count (h : w.Inv) (hme : me ∈ w.lives) (hrunning : me.ended = false) (hseen : w.Seen (.count now start me.row.id)) :
    (w.step (.count now start me.row.id)).Inv := by
  obtain ⟨older, kept, lost, rest, hslot, ⟨hkept, hstopped⟩, hsplit, hnumbered⟩ := slot_running h hme hrunning
  have hcounting := counting h hme hrunning hseen hslot
  have hfields := counted_fields w me now start
  have hstep : w.step (.count now start me.row.id) =
      { table := countCrashRestarts now (me.counter start) w.table, lives := w.lives.map (w.counted now start me) } := by
    simp only [step, life_eq h hme hkept]
  rw [hstep]
  refine h.map (f := w.counted now start me) rfl ?_ (fun x _ => ?_) (fun x _ => ?_) fun name host => ?_
  · have hcount : countCrashRestarts now (me.counter start) w.table =
        w.table.map (CrashCounter.countRow me.row ((me.counter start).crashed now me.row w.table)) := by
      rw [countCrashRestarts, show (me.counter start).id = me.row.id from rfl, find_me h hme hkept]
    have hsame : ProcessLife.kept ∘ w.counted now start me = ProcessLife.kept := by
      funext x
      exact (hfields x).2.2.2.2.2.2.2
    rw [hcount]
    conv_lhs => rw [h.rows]
    rw [List.filter_map, hsame, List.map_map, List.map_map, ← h.rows]
    exact List.map_congr_left fun x hx => (counted_row (List.mem_filter.mp hx).2).symm
  · obtain ⟨hid, hname, hhost, hstarted, -, -, -, hk⟩ := hfields x
    exact ⟨hid, hname, hhost, fun hkept => hk.symm.trans hkept, hstarted⟩
  · obtain ⟨-, -, -, -, hbeat, -⟩ := hfields x
    exact ⟨hbeat.ge, fun _ => hbeat⟩
  · by_cases hown : name = me.row.name ∧ host = me.row.host
    · obtain ⟨rfl, rfl⟩ := hown
      rw [hslot]
      refine ⟨right_counted h hcounting hsplit, .inr ⟨w.counted now start me me, older.map (w.counted now start me), _, _, _, rfl, ?_,
        hsplit.map (w.counted now start me) (fun x _ => ?_) fun newer b heq => ?_, fun hnil => ?_⟩⟩
      · obtain ⟨-, -, -, -, -, hended, hstop, hk⟩ := hfields me
        exact ⟨hended.trans hrunning, hk.trans hkept, hstop.trans hstopped⟩
      · obtain ⟨-, -, -, -, -, hended, hstop, hk⟩ := hfields x
        exact ⟨hended, hstop, hk⟩
      · -- the first of the rows is not counted
        refine congrArg ProcessLife.numbered (counted_of_not ?_)
        rw [Bool.and_eq_false_iff]
        refine .inr (Bool.eq_false_iff.mpr fun hcounts => ?_)
        have hbkept : b ∈ kept := heq ▸ List.mem_append_right _ List.mem_cons_self
        have hb : b ∈ older := hsplit.eq ▸ List.mem_append_left _ hbkept
        have hbw : b ∈ w.lives := (mem_slot.mp (hslot ▸ List.mem_cons_of_mem me hb : b ∈ w.slot me.row.name me.row.host)).1
        obtain ⟨newer', y, kept', hkept', -⟩ := counted_kept h hcounting hsplit hbw hcounts
          (older_id h hslot hkept hb (hsplit.ofKept b hbkept).2)
        have hlast : (newer' ++ b :: y :: kept').getLast? = some b := by rw [← hkept', heq, List.getLast?_concat]
        have hagain : b ∈ y :: kept' := by
          rw [List.getLast?_append, List.getLast?_cons_cons, Option.or_of_isSome (by simp)] at hlast
          exact List.mem_of_getLast? hlast
        have hnodup := (slot_nodup h me.row.name me.row.host).sublist ((kept_sublist hslot hsplit).map fun x => x.row.startedOn)
        rw [hkept', List.map_append, List.map_cons] at hnodup
        exact (List.nodup_cons.mp (List.nodup_append.mp hnodup).2.1).1 (List.mem_map_of_mem hagain)
      · rw [List.append_eq_nil_iff, List.map_eq_nil_iff, List.map_eq_nil_iff] at hnil
        obtain ⟨rfl, rfl⟩ := hnil
        simp [counted, hkept, CrashCounter.counts, before_latest h hslot, hsplit.takeWhile]
    · have hmap : (w.slot name host).map (w.counted now start me) = w.slot name host := by
        conv_rhs => rw [← List.map_id (w.slot name host)]
        refine List.map_congr_left fun x hx => ?_
        obtain ⟨hxw, rfl, rfl⟩ := mem_slot.mp hx
        exact counted_other h hcounting hsplit hxw hown
      rw [hmap]
      exact h.slots name host

/-- Deletions that take from no count. -/
theorem Inv.delete (h : w.Inv) {deleted : InstanceRow → Bool} (hharmless : ∀ name host, HarmlessIn deleted (w.slot name host)) :
    (w.delete deleted).Inv := by
  refine h.map (f := keepLess deleted) rfl ?_ (fun _ _ => ⟨rfl, rfl, rfl, fun hkept => (keepLess_kept hkept).1, rfl⟩)
    (fun _ _ => ⟨le_rfl, fun _ => rfl⟩) fun name host => (h.slots name host).delete (hharmless name host)
  have hkept : (ProcessLife.kept ∘ fun x : ProcessLife => { x with kept := x.kept && !deleted x.row }) =
      fun x => ((fun i => !deleted i) ∘ ProcessLife.row) x && x.kept := by
    funext x
    exact Bool.and_comm _ _
  simp only [InstanceHistory.delete]
  rw [h.rows, List.filter_map, List.filter_filter, List.filter_map, List.map_map, hkept]
  rfl

theorem harmless_in (h : w.Inv) {e : LifeEvent} (hharmless : w.Spares e) (name : Option String) (host : String) :
    HarmlessIn (w.deletes e) (w.slot name host) := by
  intro newer x older heq hkept hdeleted
  have hx : x ∈ w.lives := (mem_slot.mp (heq ▸ List.mem_append_right _ List.mem_cons_self : x ∈ w.slot name host)).1
  obtain ⟨hbefore, hafter⟩ := around h heq
  have hcase := hharmless x hx hkept hdeleted
  rwa [hbefore, hafter] at hcase

theorem slot_delete (deleted : InstanceRow → Bool) (name : Option String) (host : String) :
    (w.delete deleted).slot name host = (w.slot name host).map (keepLess deleted) :=
  slot_map (f := keepLess deleted) rfl (fun _ _ => ⟨rfl, rfl⟩) name host

/-- A row is inserted, where none of its id is left. -/
theorem Inv.insert (h : w.Inv) (hid : ∀ x ∈ w.lives, x.row.id = id → x.kept = false)
    (hover : ∀ x ∈ w.slot name host, x.ended = true ∧ x.row.startedOn < now ∧ x.row.heartbeatOn ≤ now)
    (hrow : x.row = { id, name, host, pid, heartbeatSeconds, startedOn := now, heartbeatOn := now })
    (hrunning : x.ended = false) (hkept : x.kept = true) (hnumbered : x.numbered = (w.slot name host).head?.all fun y => !y.crashed) :
    Inv { table := x.row :: w.table, lives := x :: w.lives } := by
  have hslot : ∀ name' host', InstanceHistory.slot { table := x.row :: w.table, lives := x :: w.lives } name' host' =
      if name = name' ∧ host = host' then x :: w.slot name' host' else w.slot name' host' := by
    intro name' host'
    simp only [slot, List.filter_cons, Bool.and_eq_true, decide_eq_true_eq, hrow]
  refine ⟨?_, ?_, fun name' host' => ?_, fun name' host' => ?_⟩
  · rw [h.rows, List.filter_cons_of_pos hkept, List.map_cons]
  · refine List.pairwise_cons.mpr ⟨fun y hy hsame => hid y hy ?_, h.ids⟩
    rw [← hsame, hrow]
  · rw [hslot]
    by_cases hown : name = name' ∧ host = host'
    · obtain ⟨rfl, rfl⟩ := hown
      rw [if_pos ⟨rfl, rfl⟩, List.pairwise_cons, hrow]
      exact ⟨fun x hx => (hover x hx).2, h.order name host⟩
    · rw [if_neg hown]
      exact h.order name' host'
  · rw [hslot]
    by_cases hown : name = name' ∧ host = host'
    · obtain ⟨rfl, rfl⟩ := hown
      rw [if_pos ⟨rfl, rfl⟩]
      have hstopped : x.stopped = false := by rw [ProcessLife.stopped, hrow]; rfl
      exact (h.slots name host).start (fun x hx => (hover x hx).1) hrunning hkept hstopped (by rw [hrow]) hnumbered
    · rw [if_neg hown]
      exact h.slots name' host'

/-- A registration, which replaces a row as a deletion takes it. -/
theorem Inv.register (h : w.Inv) (hpossible : w.Possible (.register now id name host pid heartbeatSeconds))
    (hspares : w.Spares (.register now id name host pid heartbeatSeconds)) :
    (w.step (.register now id name host pid heartbeatSeconds)).Inv := by
  have hdeleted := h.delete (harmless_in h hspares)
  refine Inv.insert (w := w.delete (w.deletes (.register now id name host pid heartbeatSeconds)))
    (x := { row := { id, name, host, pid, heartbeatSeconds, startedOn := now, heartbeatOn := now }
            numbered := (w.slot name host).head?.all fun y => !y.crashed })
    hdeleted (fun x hx hid => ?_) (fun x hx => ?_) rfl rfl rfl ?_
  · obtain ⟨y, -, rfl⟩ := List.mem_map.mp hx
    have hgone : w.deletes (.register now id name host pid heartbeatSeconds) y.row = true := decide_eq_true hid
    simp only [hgone, Bool.not_true, Bool.and_false]
  · rw [slot_delete] at hx
    obtain ⟨y, hy, rfl⟩ := List.mem_map.mp hx
    exact hpossible.2 y hy
  · rw [slot_delete, List.head?_map, Option.all_map]
    rfl

/-- What one event leaves. -/
theorem Inv.step (h : w.Inv) {e : LifeEvent} (hpossible : w.Possible e) (hharmless : w.Harmless e) : (w.step e).Inv := by
  cases e with
  | register now id name host pid heartbeatSeconds => exact h.register hpossible hharmless.2
  | count now processStart id =>
    obtain ⟨me, hme, rfl, hrunning⟩ := hpossible
    exact h.count hme hrunning hharmless.1
  | prune now id keep locked => exact h.delete (harmless_in h hharmless.2)
  | trim now keep locked => exact h.delete (harmless_in h hharmless.2)
  | deleteOld now => exact h.delete (harmless_in h hharmless.2)
  | beat now id =>
    obtain ⟨x, hx, rfl, hrunning, hnow⟩ := hpossible
    exact h.beat hx hrunning hnow
  | stop now id =>
    obtain ⟨x, hx, rfl, hrunning⟩ := hpossible
    exact h.stop hx hrunning
  | crash id =>
    obtain ⟨x, hx, rfl, hrunning⟩ := hpossible
    exact h.crash hx hrunning

theorem Inv.run {events : List LifeEvent} (h : w.Inv) (hpossible : Along Possible w events) (hharmless : Along Harmless w events) :
    (w.run events).Inv := by
  induction events generalizing w with
  | nil => exact h
  | cons e events ih => exact ih (h.step hpossible.1 hharmless.1) hpossible.2 hharmless.2

end Steps

/-- Behind every history in which no count overlooks a row and no deletion takes from a count, a life that counts, without
overlooking one, when those before it on its name and host are seen to be dead gets the number of them that crashed in a row
right before it. -/
theorem crash_restarts_counted (events : List LifeEvent) (hpossible : Along Possible {} events) (hharmless : Along Harmless {} events)
    (me : ProcessLife) (hme : me ∈ (run {} events).lives) (hrunning : me.ended = false) (now processStart : Timestamp)
    (hseen : (run {} events).Seen (.count now processStart me.row.id))
    (hdead : ∀ x ∈ (run {} events).before me, x.dead now (me.counter processStart) = true) :
    ∃ i ∈ countCrashRestarts now (me.counter processStart) (run {} events).table, i.id = me.row.id ∧
      i.crashRestarts = (crashRun ((run {} events).before me) : Int) := by
  have h := Inv.empty.run hpossible hharmless
  obtain ⟨older, kept, lost, rest, hslot, ⟨hkept, -⟩, hsplit, -⟩ := slot_running h hme hrunning
  have hcounting := counting h hme hrunning hseen hslot
  have hbefore : (run {} events).before me = older := before_latest h hslot
  rw [hbefore] at hdead ⊢
  refine ⟨CrashCounter.countRow me.row ((me.counter processStart).crashed now me.row (run {} events).table) me.row, ?_, ?_,
    count_me h hcounting hsplit fun x hx => ?_⟩
  · rw [countCrashRestarts, show (me.counter processStart).id = me.row.id from rfl, find_me h hme hkept]
    exact List.mem_map_of_mem ((mem_table h).mpr ⟨me, hme, hkept, rfl⟩)
  · rw [← counted_row hkept]
    exact (counted_fields _ _ _ _ _).1
  · have hx' := hdead x (hsplit.eq ▸ List.mem_append_left _ hx)
    have hstopped := crashed_not_stopped (hsplit.ofKept x hx).1
    simpa [ProcessLife.dead, hstopped] using hx'

/-- Lives that crash one after the other, in a container where each has the pid 1, of which the third prunes the row of the
first. Before them an object stopped and was started again. -/
def prunedLives : List LifeEvent :=
  [.register 10 5 (some "a") "h" 1 30, .count 10 0 5, .stop 20 5, .register 30 5 (some "a") "h" 1 30, .count 30 0 5, .stop 40 5,
    .register 110 1 (some "a") "h" 1 30, .count 110 105 1, .crash 1,
    .register 210 2 (some "a") "h" 1 30, .count 210 205 2, .crash 2,
    .register 310 3 (some "a") "h" 1 30, .count 310 305 3, .prune 311 3 1 [], .beat 320 3, .crash 3,
    .register 410 4 (some "a") "h" 1 30]

theorem crash_restarts_counted_pruned :
    ∃ i ∈ countCrashRestarts 410 ⟨4, some "a", "h", 1, 405⟩ (run {} prunedLives).table, i.id = 4 ∧ i.crashRestarts = 3 :=
  crash_restarts_counted prunedLives (by decide +kernel) (by decide +kernel)
    { row := ⟨4, some "a", "h", 1, 30, 0, none, 410, 410, none⟩, numbered := false }
    (by decide +kernel) rfl 410 405 (by decide +kernel) (by decide +kernel)

/-- Lives on a host that start, as `Registrar.start` does, and crash four seconds apart. -/
def crashLoop (name : Option String) (host : String) (lives : ℕ) : List LifeEvent :=
  (List.range lives).flatMap fun n =>
    let id : Uuid := Fin.ofNat _ n
    let now := seconds (4 * n + 1)
    [.register now id name host n 30, .count now (seconds (4 * n)) id, .prune now id instanceDeadKeptPerName [], .crash id]

/-- A crash loop, over before any life of it is quiet. Then a life of the name starts on another host, and one on this. -/
def loopedLives : List LifeEvent :=
  crashLoop (some "a") "h" 21 ++
    [.register (seconds 200) 21 (some "a") "k" 21 30, .count (seconds 200) (seconds 199) 21,
      .prune (seconds 200) 21 instanceDeadKeptPerName [], .register (seconds 210) 22 (some "a") "h" 22 30]

/-- A life crashes, and the next has its pid. -/
def followedLives : List LifeEvent :=
  [.register (seconds 100) 1 (some "a") "h" 1 30, .crash 1, .register (seconds 104) 2 (some "a") "h" 1 30]

/-- A life crashes, and an object stops and is started again in its process. -/
def restartedLives : List LifeEvent :=
  [.register (seconds 100) 1 (some "a") "h" 1 30, .crash 1, .register (seconds 300) 2 (some "a") "h" 2 30, .stop (seconds 310) 2,
    .register (seconds 320) 2 (some "a") "h" 2 30]

/-- The lives before one under way can be told to be dead, and its count writes another number than that of the ones that
crashed in a row right before it. -/
def Miscounts (events : List LifeEvent) (id : Uuid) (now processStart : Timestamp) (right written : Int) : Prop :=
  Along Possible {} events ∧ ∃ me ∈ (run {} events).lives, me.row.id = id ∧ me.ended = false ∧
    (∀ x ∈ (run {} events).before me, x.dead now (me.counter processStart) = true) ∧
    (crashRun ((run {} events).before me) : Int) = right ∧
    ((countCrashRestarts now (me.counter processStart) (run {} events).table).filter fun i => i.id = id).map
      InstanceRow.crashRestarts = [written]

/-- The other host's life deletes the earliest row before any count numbered the next, so of 21 crashed lives 20 are counted.
On a host whose clock is ten seconds behind, the row of the crashed life is taken for one of the same process. And with the
row of the stopped life replaced, the crash before it is counted. -/
theorem crash_restarts_miscounted :
    Miscounts loopedLives 22 (seconds 210) (seconds 209) 21 20 ∧ Miscounts followedLives 2 (seconds 300) (seconds 93) 1 0 ∧
      Miscounts restartedLives 2 (seconds 330) (seconds 299) 0 1 := by
  unfold Miscounts
  decide +kernel

section Prune

variable {w : InstanceHistory} {me x : ProcessLife} {older newer : List ProcessLife} {now : Timestamp} {keep : ℕ}

variable (keep) in
/-- On a name of one host, a life prunes the dead rows behind the latest `keep`. -/
theorem prune_deletes (h : w.Inv) (hme : me ∈ w.lives) (hslot : w.slot me.row.name me.row.host = me :: older) (hkept : me.kept = true)
    (hhost : ∀ x ∈ w.lives, x.row.name = me.row.name → x.row.host = me.row.host) (hdead : ∀ x ∈ older, x.row.dead now = true) :
    (∀ x ∈ w.lives, w.deletes (.prune now me.row.id keep []) x.row = true → x ∈ older) ∧
      ∀ newer x behind, older = newer ++ x :: behind → x.kept = true →
        (w.deletes (.prune now me.row.id keep []) x.row = true ↔ keep ≤ (newer.filter ProcessLife.kept).length) := by
  have hselected : ∀ x ∈ w.lives, pruneInstanceWhere me.row.id me.row.name me.row.host x.row =
      (decide (x.row.id ≠ me.row.id) && (decide (x.row.name = me.row.name) && decide (x.row.host = me.row.host))) := by
    intro x hx
    cases hname : me.row.name with
    | none => simp [pruneInstanceWhere]
    | some name =>
      by_cases hx' : x.row.name = some name
      · simp [pruneInstanceWhere, hx', hhost x hx (hx'.trans hname.symm)]
      · simp [pruneInstanceWhere, hx']
  have hin : ∀ x ∈ w.lives, pruneInstanceWhere me.row.id me.row.name me.row.host x.row = true → x ∈ older := by
    intro x hx hsel
    rw [hselected x hx, Bool.and_eq_true, Bool.and_eq_true, decide_eq_true_eq, decide_eq_true_eq, decide_eq_true_eq] at hsel
    have hmem : x ∈ me :: older := hslot ▸ mem_slot.mpr ⟨hx, hsel.2⟩
    rcases List.mem_cons.mp hmem with rfl | hmem
    · exact absurd rfl hsel.1
    · exact hmem
  have hranked : (w.table.filter fun i => pruneInstanceWhere me.row.id me.row.name me.row.host i && i.dead now) =
      (older.filter ProcessLife.kept).map ProcessLife.row := by
    have hrows := rows_before h hslot hkept fun x hx _ => hselected x hx
    have hall : ((older.filter ProcessLife.kept).map ProcessLife.row).filter (fun i => i.dead now) =
        (older.filter ProcessLife.kept).map ProcessLife.row := by
      refine List.filter_eq_self.mpr fun i hi => ?_
      obtain ⟨x, hx, rfl⟩ := List.mem_map.mp hi
      exact hdead x (List.mem_of_mem_filter hx)
    rw [← hall, ← hrows, List.filter_filter]
    exact List.filter_congr fun i _ => Bool.and_comm _ _
  have hdeletes : ∀ i, w.deletes (.prune now me.row.id keep []) i =
      (pruneInstanceWhere me.row.id me.row.name me.row.host i && i.dead now &&
        decide (keep < rowsBefore (fun a b => b.startedBefore a) ((older.filter ProcessLife.kept).map ProcessLife.row) i + 1)) := by
    intro i
    simp [deletes, life_eq h hme hkept, instancePruned, hranked]
  refine ⟨fun x hx hdeleted => hin x hx ?_, fun newer x behind heq hxkept => ?_⟩
  · rw [hdeletes, Bool.and_eq_true, Bool.and_eq_true] at hdeleted
    exact hdeleted.1.1
  · have hx : x ∈ older := heq ▸ List.mem_append_right _ List.mem_cons_self
    obtain ⟨hxw, hname, hhost'⟩ := mem_slot.mp (hslot ▸ List.mem_cons_of_mem _ hx : x ∈ w.slot me.row.name me.row.host)
    have hne : x.row.id ≠ me.row.id := older_id h hslot hkept hx hxkept
    have hrows : (older.filter ProcessLife.kept).map ProcessLife.row =
        (newer.filter ProcessLife.kept).map ProcessLife.row ++ x.row :: (behind.filter ProcessLife.kept).map ProcessLife.row := by
      rw [heq, List.filter_append, List.filter_cons_of_pos hxkept, List.map_append, List.map_cons]
    have hsub : (older.filter ProcessLife.kept).Sublist (w.slot me.row.name me.row.host) :=
      hslot ▸ List.filter_sublist.trans (List.sublist_cons_self _ _)
    have hnumber : rowsBefore (fun a b => b.startedBefore a) ((older.filter ProcessLife.kept).map ProcessLife.row) x.row =
        (newer.filter ProcessLife.kept).length := by
      have hfirst := latestFirst h hsub
      rw [hrows] at hfirst ⊢
      rw [rowsBefore_flip_append hfirst (startedBefore_self _), List.length_map]
    rw [hdeletes, hselected x hxw, hdead x hx, hnumber]
    simp [hne, hname, hhost']

/-- So it takes from no count where the lives before it are over and those of them that crashed were numbered. -/
theorem prune_harmless (h : w.Inv) (hme : me ∈ w.lives) (hrunning : me.ended = false) (hkeep : 0 < keep)
    (hhost : ∀ x ∈ w.lives, x.row.name = me.row.name → x.row.host = me.row.host)
    (hover : ∀ x ∈ w.before me, x.row.dead now = true ∧ (x.crashed = true → x.numbered = true)) :
    w.Harmless (.prune now me.row.id keep []) := by
  obtain ⟨older, -, -, -, hslot, ⟨hmekept, -⟩, -⟩ := slot_running h hme hrunning
  rw [before_latest h hslot] at hover
  obtain ⟨hin, hdeletes⟩ := prune_deletes keep h hme hslot hmekept hhost fun x hx => (hover x hx).1
  refine ⟨trivial, fun x hx hkept hdeleted => ?_⟩
  obtain ⟨newer, behind, heq⟩ := List.append_of_mem (hin x hx hdeleted)
  have hplace : w.slot me.row.name me.row.host = (me :: newer) ++ x :: behind := by rw [hslot, heq]; rfl
  obtain ⟨hbefore, hafter⟩ := around h hplace
  rw [hbefore, hafter]
  have hrank := (hdeletes newer x behind heq hkept).mp hdeleted
  -- a row is left ahead of it, so the next life is one before `me`
  obtain ⟨ahead, y, rfl⟩ : ∃ ahead y, newer = ahead ++ [y] := by
    rcases List.eq_nil_or_concat newer with rfl | ⟨ahead, y, rfl⟩
    · exact absurd (hkeep.trans_le hrank) (lt_irrefl _)
    · exact ⟨ahead, y, List.concat_eq_append⟩
  have hy : y ∈ older := by simp [heq]
  have hended := older_ended h hslot
  by_cases hstays : y.stopped = true ∧ y.kept = true ∧ w.deletes (.prune now me.row.id keep []) y.row = false
  · exact .inl ⟨y, by simp, hstays⟩
  · refine .inr ⟨hended x (heq ▸ by simp), fun z hz hzkept => ?_, .inr ?_⟩
    · obtain ⟨between, last, rfl⟩ := List.append_of_mem hz
      refine (hdeletes (ahead ++ [y] ++ x :: between) z last (by rw [heq]; simp) hzkept).mpr (hrank.trans ?_)
      rw [List.filter_append (ahead ++ [y]), List.length_append]
      exact Nat.le_add_right _ _
    · have hlast : (me :: (ahead ++ [y])).getLast? = some y := by rw [← List.cons_append, List.getLast?_concat]
      rw [hlast, Option.any_some, hended y hy, Bool.true_and]
      cases hstopped : y.stopped with
      | true =>
        cases hykept : y.kept with
        | false => rfl
        | true =>
          cases hydel : w.deletes (.prune now me.row.id keep []) y.row with
          | true => rfl
          | false => exact absurd ⟨hstopped, hykept, hydel⟩ hstays
      | false =>
        have hcrashed : y.crashed = true := by simp [ProcessLife.crashed, hended y hy, hstopped]
        simp [(hover y hy).2 hcrashed]

end Prune

end InstanceHistory

end PgBoss
