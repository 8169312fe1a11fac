import Mathlib

/-!
# Walking a table by key

A walk covers rows of a table in batches. A batch takes the rows whose keys are among the next
`size` keys past a cursor, drops some of them, and hands on the last of those keys as the next
cursor, or none where fewer than `size` keys are left. Keys may repeat, within a batch and across
its edge. The keys of a batch can be given as a range up to the edge or as a list.

The walk ends, its batches share out the rows, and what it drops is what one pass over the whole
table would.
-/

namespace Keyset

variable {Row K : Type*} [LinearOrder K]

/-- The key lies past the cursor, which is nowhere before the first batch. -/
def past (cursor : Option K) (k : K) : Bool := cursor.all fun c => decide (c < k)

/-- The keys past the cursor, in order. -/
def pending (cursor : Option K) (keys : List K) : List K := (keys.filter (past cursor)).insertionSort (· ≤ ·)

/-- The last key of the next batch, none where fewer than `size` are left. -/
def edge (size : ℕ) (cursor : Option K) (keys : List K) : Option K := (pending cursor keys)[size - 1]?

/-- How a batch is bounded: up to its edge, or by its own keys. -/
inductive Bound
  | range
  | list
  deriving DecidableEq, Repr

/-- The batch covers a key past the cursor. -/
def Bound.covers (form : Bound) (size : ℕ) (cursor : Option K) (keys : List K) (k : K) : Bool :=
  match form with
  | range => (edge size cursor keys).all fun e => decide (k ≤ e)
  | list => decide (k ∈ (pending cursor keys).take size)

section Bounds

variable {size : ℕ} {cursor : Option K} {keys : List K} {k e : K}

theorem pending_sorted (cursor : Option K) (keys : List K) : (pending cursor keys).Pairwise (· ≤ ·) :=
  List.pairwise_insertionSort _ _

theorem mem_pending : k ∈ pending cursor keys ↔ k ∈ keys ∧ past cursor k = true :=
  (List.perm_insertionSort (· ≤ ·) (keys.filter (past cursor))).mem_iff.trans List.mem_filter

/-- The first keys of a sorted list are those up to the last of them. -/
theorem mem_take_iff {l : List K} (hsorted : l.Pairwise (· ≤ ·)) (hsize : 0 < size) (hk : k ∈ l) :
    k ∈ l.take size ↔ (l[size - 1]?.all fun e => decide (k ≤ e)) = true := by
  obtain ⟨i, hi, rfl⟩ := List.mem_iff_getElem.mp hk
  have hle : ∀ a b (ha : a < l.length) (hb : b < l.length), a ≤ b → l[a] ≤ l[b] := fun a b ha hb hab => by
    rcases hab.lt_or_eq with hab | rfl
    · exact List.pairwise_iff_getElem.mp hsorted a b ha hb hab
    · exact le_rfl
  by_cases hedge : size - 1 < l.length
  · rw [List.getElem?_eq_getElem hedge, Option.all_some, decide_eq_true_eq]
    constructor
    · intro hmem
      obtain ⟨a, ha, heq⟩ := List.mem_iff_getElem.mp hmem
      rw [List.length_take] at ha
      rw [← heq, List.getElem_take]
      exact hle a (size - 1) (by omega) hedge (by omega)
    · intro hup
      by_cases hin : i < size
      · exact List.mem_take_iff_getElem.mpr ⟨i, by omega, rfl⟩
      · -- a key behind the edge is equal to it
        have heq : l[i] = l[size - 1] := le_antisymm hup (hle (size - 1) i hedge hi (by omega))
        exact List.mem_take_iff_getElem.mpr ⟨size - 1, by omega, heq.symm⟩
  · rw [List.getElem?_eq_none (by omega), List.take_of_length_le (by omega)]
    simp

/-- Both forms cover the same keys. -/
theorem Bound.covers_eq (form : Bound) (hsize : 0 < size) (hk : k ∈ keys) (hpast : past cursor k = true) :
    form.covers size cursor keys k = (edge size cursor keys).all fun e => decide (k ≤ e) := by
  cases form with
  | range => rfl
  | list =>
    rw [covers, Bool.eq_iff_iff, decide_eq_true_eq]
    exact mem_take_iff (pending_sorted cursor keys) hsize (mem_pending.mpr ⟨hk, hpast⟩)

theorem edge_mem (h : edge size cursor keys = some e) : e ∈ keys ∧ past cursor e = true :=
  mem_pending.mp (List.mem_of_getElem? h)

/-- What is past an edge is past the cursor before it. -/
theorem past_of_past_edge (h : edge size cursor keys = some e) (hpast : past (some e) k = true) :
    past cursor k = true := by
  have hedge := (edge_mem h).2
  cases cursor with
  | none => rfl
  | some c =>
    simp only [past, Option.all_some, decide_eq_true_eq] at hedge hpast ⊢
    exact hedge.trans hpast

end Bounds

/-- The rows a batch covers, and those of them it drops. -/
structure Batch (Row : Type*) where
  range : List Row
  removed : List Row
  deriving DecidableEq, Repr

section Walks

variable (mine : Row → Bool) (key : Row → K) (form : Bound) (size : ℕ)

/-- The keys of the rows walked. -/
def keys (rows : List Row) : List K := (rows.filter mine).map key

/-- The batch after the cursor covers the row. -/
def inBatch (cursor : Option K) (rows : List Row) (r : Row) : Bool :=
  mine r && past cursor (key r) && form.covers size cursor (keys mine key rows) (key r)

/-- The batch after the cursor. -/
def batch (drop : Row → Bool) (cursor : Option K) (rows : List Row) : Batch Row where
  range := rows.filter (inBatch mine key form size cursor rows)
  removed := (rows.filter (inBatch mine key form size cursor rows)).filter drop

/-- The table after it. -/
def left (drop : Row → Bool) (cursor : Option K) (rows : List Row) : List Row :=
  rows.filter fun r => !(inBatch mine key form size cursor rows r && drop r)

/-- Batch after batch until one has no edge: the batches, and the table in the end. `drop n` says
what the batch `n` from here drops. -/
def walk : ℕ → (ℕ → Row → Bool) → Option K → List Row → Option (List (Batch Row) × List Row)
  | 0, _, _, _ => none
  | fuel + 1, drop, cursor, rows =>
    match edge size cursor (keys mine key rows) with
    | none => some ([batch mine key form size (drop 0) cursor rows], left mine key form size (drop 0) cursor rows)
    | some e =>
      (walk fuel (fun n => drop (n + 1)) (some e) (left mine key form size (drop 0) cursor rows)).map fun out =>
        (batch mine key form size (drop 0) cursor rows :: out.1, out.2)

variable {mine key form size} {cursor : Option K} {rows : List Row} {e : K}

theorem inBatch_eq (hsize : 0 < size) {r : Row} (hr : r ∈ rows) :
    inBatch mine key form size cursor rows r = (mine r && past cursor (key r) &&
      (edge size cursor (keys mine key rows)).all fun e => decide (key r ≤ e)) := by
  rw [inBatch]
  cases hmine : mine r with
  | false => rfl
  | true =>
    cases hpast : past cursor (key r) with
    | false => rfl
    | true =>
      have hkey : key r ∈ keys mine key rows := List.mem_map_of_mem (List.mem_filter.mpr ⟨hr, hmine⟩)
      rw [form.covers_eq hsize hkey hpast]

variable (mine key) in
/-- The form of the bound makes no difference to a batch. -/
theorem batch_form (form form' : Bound) (hsize : 0 < size) (drop : Row → Bool) (cursor : Option K) (rows : List Row) :
    batch mine key form size drop cursor rows = batch mine key form' size drop cursor rows ∧
      left mine key form size drop cursor rows = left mine key form' size drop cursor rows := by
  have hin : ∀ r ∈ rows, inBatch mine key form size cursor rows r = inBatch mine key form' size cursor rows r :=
    fun r hr => (inBatch_eq hsize hr).trans (inBatch_eq hsize hr).symm
  refine ⟨?_, List.filter_congr fun r hr => by rw [hin r hr]⟩
  simp only [batch, List.filter_congr hin]

/-- The form of the bound makes no difference to a walk. -/
theorem walk_form (form form' : Bound) (hsize : 0 < size) (fuel : ℕ) (drop : ℕ → Row → Bool) (cursor : Option K)
    (rows : List Row) :
    walk mine key form size fuel drop cursor rows = walk mine key form' size fuel drop cursor rows := by
  induction fuel generalizing drop cursor rows with
  | zero => rfl
  | succ fuel ih =>
    obtain ⟨hbatch, hleft⟩ := batch_form mine key form form' hsize (drop 0) cursor rows
    simp only [walk, hbatch, hleft, ih]

/-- What one batch leaves past its edge is what was there. -/
theorem left_past (hsize : 0 < size) (drop : Row → Bool) (hedge : edge size cursor (keys mine key rows) = some e) :
    (left mine key form size drop cursor rows).filter (fun r => mine r && past (some e) (key r)) =
      rows.filter fun r => mine r && past (some e) (key r) := by
  rw [left, List.filter_filter]
  refine List.filter_congr fun r hr => ?_
  rw [inBatch_eq hsize hr, hedge]
  by_cases hle : key r ≤ e
  · simp [past, not_lt.mpr hle]
  · simp [hle]

/-- An edge is behind the next cursor, so fewer rows are past it. -/
theorem count_past_lt (form : Bound) (hsize : 0 < size) (drop : Row → Bool) (hedge : edge size cursor (keys mine key rows) = some e) :
    (left mine key form size drop cursor rows).countP (fun r => mine r && past (some e) (key r)) <
      rows.countP fun r => mine r && past cursor (key r) := by
  obtain ⟨hmem, hpast⟩ := edge_mem hedge
  obtain ⟨r, hr, rfl⟩ := List.mem_map.mp hmem
  obtain ⟨hr, hmine⟩ := List.mem_filter.mp hr
  rw [List.countP_eq_length_filter, left_past hsize drop hedge, List.countP_eq_length_filter]
  have hsub : rows.filter (fun s => mine s && past (some (key r)) (key s)) =
      (rows.filter fun s => mine s && past cursor (key s)).filter fun s => past (some (key r)) (key s) := by
    rw [List.filter_filter]
    refine List.filter_congr fun s _ => ?_
    cases hs : past (some (key r)) (key s) with
    | false => simp
    | true => simp [past_of_past_edge hedge hs]
  rw [hsub]
  refine List.length_filter_lt_length_iff_exists.mpr ⟨r, List.mem_filter.mpr ⟨hr, by simp [hmine, hpast]⟩, ?_⟩
  simp [past]

/-- What a walk leaves and reports, for the rows past the cursor: `dropped` says of each what its
own batch made of it. -/
structure Walked (mine : Row → Bool) (key : Row → K) (drop : ℕ → Row → Bool) (cursor : Option K) (rows : List Row)
    (out : List (Batch Row) × List Row) (dropped : Row → Bool) : Prop where
  asked : ∀ r, ∃ n, dropped r = drop n r
  range : (out.1.flatMap Batch.range).Perm (rows.filter fun r => mine r && past cursor (key r))
  removed : (out.1.flatMap Batch.removed).Perm (rows.filter fun r => mine r && past cursor (key r) && dropped r)
  inRange : ∀ b ∈ out.1, b.removed.Sublist b.range
  rest : out.2 = rows.filter fun r => !(mine r && past cursor (key r) && dropped r)

/-- The last batch covers everything past its cursor. -/
theorem walked_last (form : Bound) (hsize : 0 < size) (drop : ℕ → Row → Bool) (hedge : edge size cursor (keys mine key rows) = none) :
    Walked mine key drop cursor rows
      ([batch mine key form size (drop 0) cursor rows], left mine key form size (drop 0) cursor rows) (drop 0) := by
  have hin : ∀ r ∈ rows, inBatch mine key form size cursor rows r = (mine r && past cursor (key r)) := fun r hr => by
    rw [inBatch_eq hsize hr, hedge, Option.all_none, Bool.and_true]
  refine ⟨fun r => ⟨0, rfl⟩, ?_, ?_, ?_, List.filter_congr fun r hr => by rw [hin r hr]⟩
  · simp [batch, List.filter_congr hin]
  · simp only [batch, List.flatMap_cons, List.flatMap_nil, List.append_nil, List.filter_congr hin, List.filter_filter]
    exact List.Perm.of_eq (List.filter_congr fun r _ => Bool.and_comm _ _)
  · intro b hb
    rw [List.mem_singleton.mp hb]
    exact List.filter_sublist

/-- A batch in front of a walk that goes on from its edge. -/
theorem Walked.cons (hsize : 0 < size) {drop : ℕ → Row → Bool} (hedge : edge size cursor (keys mine key rows) = some e)
    {out : List (Batch Row) × List Row} {dropped : Row → Bool}
    (h : Walked mine key (fun n => drop (n + 1)) (some e) (left mine key form size (drop 0) cursor rows) out dropped) :
    Walked mine key drop cursor rows (batch mine key form size (drop 0) cursor rows :: out.1, out.2)
      fun r => if key r ≤ e then drop 0 r else dropped r := by
  have hin : ∀ r ∈ rows, inBatch mine key form size cursor rows r =
      (decide (key r ≤ e) && (mine r && past cursor (key r))) := fun r hr => by
    rw [inBatch_eq hsize hr, hedge, Option.all_some, Bool.and_comm]
  have hbehind : ∀ r, (mine r && past (some e) (key r)) =
      (!decide (key r ≤ e) && (mine r && past cursor (key r))) := fun r => by
    by_cases hle : key r ≤ e
    · simp [past, hle, not_lt.mpr hle]
    · have hpast : past (some e) (key r) = true := by simpa [past] using hle
      simp [hle, hpast, past_of_past_edge hedge hpast]
  have hsplit : ∀ p : Row → Bool, (rows.filter (fun r => decide (key r ≤ e) && p r) ++
      rows.filter fun r => !decide (key r ≤ e) && p r).Perm (rows.filter p) := fun p => by
    simp only [← List.filter_filter]
    exact List.filter_append_perm _ _
  refine ⟨fun r => ?_, ?_, ?_, ?_, ?_⟩
  · obtain ⟨n, hn⟩ := h.asked r
    by_cases hle : key r ≤ e
    · exact ⟨0, if_pos hle⟩
    · exact ⟨n + 1, (if_neg hle).trans hn⟩
  · refine List.Perm.trans ?_ (hsplit fun r => mine r && past cursor (key r))
    rw [List.flatMap_cons]
    refine List.Perm.append (List.Perm.of_eq (List.filter_congr hin)) (h.range.trans (List.Perm.of_eq ?_))
    rw [left_past hsize (drop 0) hedge]
    exact List.filter_congr fun r _ => hbehind r
  · refine List.Perm.trans ?_ (hsplit _)
    rw [List.flatMap_cons]
    refine List.Perm.append (List.Perm.of_eq ?_) (h.removed.trans (List.Perm.of_eq ?_))
    · rw [batch, List.filter_filter]
      refine List.filter_congr fun r hr => ?_
      rw [hin r hr]
      by_cases hle : key r ≤ e <;> simp [hle, Bool.and_comm]
    · have hcongr : ∀ rows : List Row, (rows.filter fun r => mine r && past (some e) (key r) && dropped r) =
          (rows.filter fun r => mine r && past (some e) (key r)).filter dropped := fun rows => by
        rw [List.filter_filter]
        exact List.filter_congr fun r _ => Bool.and_comm _ _
      rw [hcongr, left_past hsize (drop 0) hedge, ← hcongr]
      refine List.filter_congr fun r _ => ?_
      rw [hbehind]
      by_cases hle : key r ≤ e <;> simp [hle]
  · intro b hb
    rcases List.mem_cons.mp hb with rfl | hb
    · exact List.filter_sublist
    · exact h.inRange b hb
  · refine h.rest.trans ?_
    rw [left, List.filter_filter]
    refine List.filter_congr fun r hr => ?_
    rw [hin r hr, hbehind]
    by_cases hle : key r ≤ e <;> simp [hle]

variable (mine key form) in
/-- A walk over `n` rows ends within `n + 1` batches, and does what one pass would. -/
theorem walk_ends (hsize : 0 < size) (n : ℕ) (drop : ℕ → Row → Bool) (cursor : Option K) (rows : List Row)
    (hcount : (rows.countP fun r => mine r && past cursor (key r)) ≤ n) :
    ∃ out dropped, (∀ fuel, n < fuel → walk mine key form size fuel drop cursor rows = some out) ∧
      Walked mine key drop cursor rows out dropped := by
  induction n generalizing drop cursor rows with
  | zero =>
    have hedge : edge size cursor (keys mine key rows) = none := by
      by_contra hsome
      obtain ⟨e, he⟩ := Option.ne_none_iff_exists'.mp hsome
      exact absurd (count_past_lt form hsize (drop 0) he) (by omega)
    refine ⟨_, _, fun fuel hfuel => ?_, walked_last form hsize drop hedge⟩
    obtain ⟨fuel, rfl⟩ := Nat.exists_eq_add_of_lt hfuel
    simp [walk, hedge]
  | succ n ih =>
    cases hedge : edge size cursor (keys mine key rows) with
    | none =>
      refine ⟨_, _, fun fuel hfuel => ?_, walked_last form hsize drop hedge⟩
      obtain ⟨fuel, rfl⟩ := Nat.exists_eq_add_of_lt hfuel
      simp [walk, hedge]
    | some e =>
      have hlt := count_past_lt form hsize (drop 0) hedge
      obtain ⟨out, dropped, hwalk, hwalked⟩ := ih (fun m => drop (m + 1)) (some e)
        (left mine key form size (drop 0) cursor rows) (by omega)
      refine ⟨_, _, fun fuel hfuel => ?_, hwalked.cons hsize hedge⟩
      obtain ⟨fuel, rfl⟩ := Nat.exists_eq_add_of_lt hfuel
      simp only [walk, hedge]
      rw [hwalk _ (by omega)]
      rfl

end Walks

end Keyset
