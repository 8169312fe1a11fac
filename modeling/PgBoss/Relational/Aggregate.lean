import Mathlib

/-!
# Aggregates, groups, joins and windows

The parts of a grouping query over rows in memory: aggregates that skip nulls and are null over no
value, `GROUP BY`, a `FULL JOIN` of two grouped results on their keys, and a running aggregate over
ordered rows. Aggregating the aggregates of groups aggregates their rows.
-/

namespace Relational

section Aggregate

variable {α β : Type*} (f : α → α → α)

/-- The values that are not null, put together by `f`; null where there is none. -/
def aggregate (l : List (Option α)) : Option α := l.foldr (Option.merge f) none

@[simp] theorem aggregate_nil : aggregate f [] = none := rfl

@[simp] theorem aggregate_cons (a : Option α) (l : List (Option α)) :
    aggregate f (a :: l) = Option.merge f a (aggregate f l) := rfl

theorem merge_assoc [Std.Associative f] (a b c : Option α) :
    Option.merge f (Option.merge f a b) c = Option.merge f a (Option.merge f b c) :=
  Std.Associative.assoc a b c

theorem aggregate_append [Std.Associative f] (l l' : List (Option α)) :
    aggregate f (l ++ l') = Option.merge f (aggregate f l) (aggregate f l') := by
  induction l with
  | nil => simp
  | cons a l ih => rw [List.cons_append, aggregate_cons, aggregate_cons, ih, merge_assoc]

theorem aggregate_perm [Std.Associative f] [Std.Commutative f] {l l' : List (Option α)} (h : l.Perm l') :
    aggregate f l = aggregate f l' := h.foldr_op_eq

/-- The aggregate of aggregates is that of all the values. -/
theorem aggregate_flatMap [Std.Associative f] (g : β → List (Option α)) (l : List β) :
    aggregate f (l.flatMap g) = aggregate f (l.map fun b => aggregate f (g b)) := by
  induction l with
  | nil => rfl
  | cons b l ih => rw [List.flatMap_cons, aggregate_append, ih, List.map_cons, aggregate_cons]

/-- Nulls do not count. -/
theorem aggregate_bind (p : β → Option γ) (g : γ → Option α) (l : List β) :
    aggregate f (l.map fun b => (p b).bind g) = aggregate f ((l.filterMap p).map g) := by
  induction l with
  | nil => rfl
  | cons b l ih =>
    cases hp : p b with
    | none => simp [hp, ih]
    | some c => simp [hp, ih]

theorem aggregate_max [LinearOrder α] (l : List α) : aggregate max (l.map some) = l.max? := by
  induction l with
  | nil => rfl
  | cons a l ih => rw [List.map_cons, aggregate_cons, ih, List.max?_cons]; cases l.max? <;> rfl

theorem aggregate_min [LinearOrder α] (l : List α) : aggregate min (l.map some) = l.min? := by
  induction l with
  | nil => rfl
  | cons a l ih => rw [List.map_cons, aggregate_cons, ih, List.min?_cons]; cases l.min? <;> rfl

/-- The sum of the values that there are, as `COALESCE(sum(x), 0)` gives it. -/
theorem aggregate_add_getD (l : List (Option ℤ)) :
    (aggregate (· + ·) l).getD 0 = (l.map fun a => a.getD 0).sum := by
  induction l with
  | nil => rfl
  | cons a l ih =>
    rw [aggregate_cons, List.map_cons, List.sum_cons, ← ih]
    cases a <;> cases aggregate (· + ·) l <;> simp [Option.merge]

end Aggregate

section Groups

variable {Row K : Type*} [DecidableEq K] {key : Row → K} {rows : List Row}

/-- The rows of each key there is. -/
def groupBy (key : Row → K) (rows : List Row) : List (K × List Row) :=
  (rows.map key).dedup.map fun k => (k, rows.filter fun r => decide (key r = k))

theorem groupBy_keys (key : Row → K) (rows : List Row) : (groupBy key rows).map Prod.fst = (rows.map key).dedup := by
  rw [groupBy, List.map_map]
  exact List.map_id _

theorem mem_groupBy {k : K} {group : List Row} :
    (k, group) ∈ groupBy key rows ↔ (∃ r ∈ rows, key r = k) ∧ group = rows.filter fun r => decide (key r = k) := by
  simp only [groupBy, List.mem_map, List.mem_dedup, Prod.mk.injEq]
  constructor
  · rintro ⟨_, hk, rfl, rfl⟩
    exact ⟨hk, rfl⟩
  · rintro ⟨hk, rfl⟩
    exact ⟨k, hk, rfl, rfl⟩

/-- The group of a key. -/
theorem groupBy_filter {k : K} (hk : k ∈ rows.map key) :
    ((groupBy key rows).filter fun x => decide (x.1 = k)) = [(k, rows.filter fun r => decide (key r = k))] := by
  have hone : ((rows.map key).dedup.filter fun k' => decide (k' = k)) = [k] := by
    rw [List.filter_eq, List.count_eq_one_of_mem (List.nodup_dedup _) (List.mem_dedup.mpr hk), List.replicate_one]
  have hcomp : ((fun x : K × List Row => decide (x.1 = k)) ∘ fun k => (k, rows.filter fun r => decide (key r = k))) =
      fun k' => decide (k' = k) := rfl
  rw [groupBy, List.filter_map, hcomp, hone]
  rfl

theorem flatMap_filter {β : Type*} (p : Row → Bool) (g : Row → List β) (rows : List Row) :
    (rows.filter p).flatMap g = rows.flatMap fun r => if p r then g r else [] := by
  induction rows with
  | nil => rfl
  | cons r rows ih => cases hp : p r <;> simp [hp, ih]

/-- The groups of distinct keys hold the rows that have one of them. -/
theorem flatMap_filter_perm (key : Row → K) (rows : List Row) {ks : List K} (hks : ks.Nodup) :
    (ks.flatMap fun k => rows.filter fun r => decide (key r = k)).Perm (rows.filter fun r => decide (key r ∈ ks)) := by
  induction ks with
  | nil => simp
  | cons k ks ih =>
    obtain ⟨hk, hks⟩ := List.nodup_cons.mp hks
    have hsplit := List.filter_append_perm (fun r => decide (key r = k)) (rows.filter fun r => decide (key r ∈ k :: ks))
    simp only [List.filter_filter] at hsplit
    rw [List.flatMap_cons]
    refine List.Perm.trans (List.Perm.append (List.Perm.of_eq ?_) ((ih hks).trans (List.Perm.of_eq ?_))) hsplit
    · exact List.filter_congr fun r _ => by by_cases hr : key r = k <;> simp [hr]
    · exact List.filter_congr fun r _ => by by_cases hr : key r = k <;> simp [hr, hk]

/-- Aggregating what the groups of some keys were aggregated to aggregates their rows. -/
theorem aggregate_groupBy {α : Type*} (f : α → α → α) [Std.Associative f] [Std.Commutative f] (key : Row → K)
    (rows : List Row) (p : K → Bool) (g : Row → Option α) :
    aggregate f (((groupBy key rows).filter fun x => p x.1).map fun x => aggregate f (x.2.map g)) =
      aggregate f ((rows.filter fun r => p (key r)).map g) := by
  have hperm := flatMap_filter_perm key rows ((List.nodup_dedup (rows.map key)).filter p)
  have hrows : (rows.filter fun r => decide (key r ∈ (rows.map key).dedup.filter p)) = rows.filter fun r => p (key r) :=
    List.filter_congr fun r hr => by simpa using fun _ => ⟨r, hr, rfl⟩
  rw [← hrows, ← aggregate_perm f (hperm.map g), List.map_flatMap, aggregate_flatMap, groupBy, List.filter_map,
    List.map_map]
  rfl

end Groups

/-- A row of a full join: one side's row without a match, or a match. -/
inductive JoinRow (A B : Type*)
  | left (a : A)
  | both (a : A) (b : B)
  | right (b : B)
  deriving DecidableEq, Repr

namespace JoinRow

variable {A B K : Type*}

/-- The left side's columns. -/
def left? : JoinRow A B → Option A
  | left a => some a
  | both a _ => some a
  | right _ => none

/-- The right side's columns. -/
def right? : JoinRow A B → Option B
  | left _ => none
  | both _ b => some b
  | right b => some b

/-- `COALESCE` of the two keys. -/
def key (lk : A → K) (rk : B → K) : JoinRow A B → K
  | left a => lk a
  | both a _ => lk a
  | right b => rk b

end JoinRow

section Joins

variable {A B K : Type*} [DecidableEq K] (lk : A → K) (rk : B → K)

/-- The join rows of one left row. -/
def joinLeft (r : List B) (a : A) : List (JoinRow A B) :=
  match r.filter fun b => decide (rk b = lk a) with
  | [] => [.left a]
  | b :: bs => (b :: bs).map (JoinRow.both a)

/-- `l FULL JOIN r ON rk = lk`. -/
def fullJoin (l : List A) (r : List B) : List (JoinRow A B) :=
  l.flatMap (joinLeft lk rk r) ++ (r.filter fun b => decide (rk b ∉ l.map lk)).map JoinRow.right

variable {lk rk} {l : List A} {r : List B}

theorem joinLeft_right (r : List B) (a : A) :
    (joinLeft lk rk r a).filterMap JoinRow.right? = r.filter fun b => decide (rk b = lk a) := by
  rw [joinLeft]
  split
  next h => rw [h]; rfl
  next b bs h =>
    rw [h, List.filterMap_map]
    exact List.filterMap_some

/-- Selecting rows by what they map to. -/
theorem filterMap_filter_congr {α β : Type*} {f : α → Option β} {p : α → Bool} {q : β → Bool} {xs : List α}
    (h : ∀ x ∈ xs, ∀ b, f x = some b → p x = q b) : (xs.filter p).filterMap f = (xs.filterMap f).filter q := by
  rw [List.filterMap_filter, List.filter_filterMap]
  refine List.filterMap_congr fun x hx => ?_
  cases hf : f x with
  | none => simp
  | some b => rw [h x hx b hf, Option.filter_some]

/-- With distinct left keys, every right row is in one row of the join. -/
theorem fullJoin_right (hl : (l.map lk).Nodup) : ((fullJoin lk rk l r).filterMap JoinRow.right?).Perm r := by
  have hmatched : (l.flatMap fun a => r.filter fun b => decide (rk b = lk a)).Perm
      (r.filter fun b => decide (rk b ∈ l.map lk)) := by
    have h := flatMap_filter_perm rk r hl
    rwa [List.flatMap_map] at h
  rw [fullJoin, List.filterMap_append, List.filterMap_flatMap, List.filterMap_map]
  simp only [joinLeft_right]
  rw [show (JoinRow.right? ∘ (JoinRow.right : B → JoinRow A B)) = some from rfl, List.filterMap_some]
  refine (hmatched.append_right _).trans ?_
  have hsplit := List.filter_append_perm (fun b => decide (rk b ∈ l.map lk)) r
  simpa only [← decide_not] using hsplit

/-- A row's match is the only one when the right keys are distinct. -/
theorem joinLeft_cases (hr : (r.map rk).Nodup) (a : A) :
    joinLeft lk rk r a = [.left a] ∧ (∀ b ∈ r, rk b ≠ lk a) ∨ ∃ b ∈ r, rk b = lk a ∧ joinLeft lk rk r a = [.both a b] := by
  rw [joinLeft]
  split
  next h =>
    refine .inl ⟨rfl, fun b hb heq => ?_⟩
    simpa [heq] using List.filter_eq_nil_iff.mp h b hb
  next b bs h =>
    have hb : b ∈ r.filter fun b => decide (rk b = lk a) := h ▸ List.mem_cons_self
    obtain ⟨hbr, hkey⟩ := List.mem_filter.mp hb
    have hbs : bs = [] := by
      refine List.eq_nil_iff_forall_not_mem.mpr fun c hc => ?_
      have hnodup := (hr.of_map _).filter fun b => decide (rk b = lk a)
      obtain ⟨hcr, hckey⟩ := List.mem_filter.mp (h ▸ List.mem_cons_of_mem _ hc : c ∈ r.filter fun b => decide (rk b = lk a))
      have heq : c = b := List.inj_on_of_nodup_map hr hcr hbr ((of_decide_eq_true hckey).trans (of_decide_eq_true hkey).symm)
      rw [h] at hnodup
      exact (List.nodup_cons.mp hnodup).1 (heq ▸ hc)
    exact .inr ⟨b, hbr, of_decide_eq_true hkey, by rw [hbs]; rfl⟩

/-- With distinct right keys, every left row is in one row of the join. -/
theorem fullJoin_left (hr : (r.map rk).Nodup) : (fullJoin lk rk l r).filterMap JoinRow.left? = l := by
  have hone : ∀ a, (joinLeft lk rk r a).filterMap JoinRow.left? = [a] := fun a => by
    rcases joinLeft_cases hr a with ⟨h, -⟩ | ⟨b, -, -, h⟩ <;> rw [h] <;> rfl
  rw [fullJoin, List.filterMap_append, List.filterMap_flatMap, List.filterMap_map]
  simp only [hone]
  rw [show (JoinRow.left? ∘ (JoinRow.right : B → JoinRow A B)) = fun _ => none from rfl, List.filterMap_none,
    List.append_nil]
  exact List.flatMap_singleton' l

/-- The key of a join row is that of either side it has. -/
theorem fullJoin_key {x : JoinRow A B} (hr : (r.map rk).Nodup) (hx : x ∈ fullJoin lk rk l r) :
    (∀ a, x.left? = some a → x.key lk rk = lk a) ∧ ∀ b, x.right? = some b → x.key lk rk = rk b := by
  rcases List.mem_append.mp hx with hx | hx
  · obtain ⟨a, -, hx⟩ := List.mem_flatMap.mp hx
    rcases joinLeft_cases hr a with ⟨h, -⟩ | ⟨b, -, hkey, h⟩
    · obtain rfl := List.mem_singleton.mp (h ▸ hx)
      exact ⟨fun a' ha' => congrArg lk (Option.some.inj ha'), fun b hb => by simp [JoinRow.right?] at hb⟩
    · obtain rfl := List.mem_singleton.mp (h ▸ hx)
      exact ⟨fun a' ha' => congrArg lk (Option.some.inj ha'),
        fun b' hb' => hkey.symm.trans (congrArg rk (Option.some.inj hb'))⟩
  · obtain ⟨b, -, rfl⟩ := List.mem_map.mp hx
    exact ⟨fun a ha => by simp [JoinRow.left?] at ha, fun b' hb' => congrArg rk (Option.some.inj hb')⟩

/-- The right rows of the join rows of some keys. -/
theorem fullJoin_right_where (hl : (l.map lk).Nodup) (hr : (r.map rk).Nodup) (p : K → Bool) :
    (((fullJoin lk rk l r).filter fun x => p (x.key lk rk)).filterMap JoinRow.right?).Perm (r.filter fun b => p (rk b)) := by
  rw [filterMap_filter_congr fun x hx b hb => congrArg p ((fullJoin_key hr hx).2 b hb)]
  exact (fullJoin_right hl).filter _

/-- The left rows of the join rows of some keys. -/
theorem fullJoin_left_where (hr : (r.map rk).Nodup) (p : K → Bool) :
    ((fullJoin lk rk l r).filter fun x => p (x.key lk rk)).filterMap JoinRow.left? = l.filter fun a => p (lk a) := by
  rw [filterMap_filter_congr fun x hx a ha => congrArg p ((fullJoin_key hr hx).1 a ha), fullJoin_left hr]

/-- The rows of the join have distinct keys. -/
theorem fullJoin_keys_nodup (hl : (l.map lk).Nodup) (hr : (r.map rk).Nodup) :
    ((fullJoin lk rk l r).map (JoinRow.key lk rk)).Nodup := by
  have hone : ∀ a, (joinLeft lk rk r a).map (JoinRow.key lk rk) = [lk a] := fun a => by
    rcases joinLeft_cases hr a with ⟨h, -⟩ | ⟨b, -, -, h⟩ <;> rw [h] <;> rfl
  have hkeys : (fullJoin lk rk l r).map (JoinRow.key lk rk) =
      l.map lk ++ (r.filter fun b => decide (rk b ∉ l.map lk)).map rk := by
    rw [fullJoin, List.map_append, List.map_flatMap, List.map_map]
    simp only [hone]
    rw [← List.map_eq_flatMap]
    rfl
  rw [hkeys]
  refine List.nodup_append.mpr ⟨hl, hr.sublist (List.filter_sublist.map rk), fun k hk k' hk' heq => ?_⟩
  obtain ⟨b, hb, rfl⟩ := List.mem_map.mp hk'
  exact of_decide_eq_true (List.mem_filter.mp hb).2 (heq ▸ hk)

end Joins

section Windows

variable {Row α : Type*} (f : α → α → α) (x : Row → Option α)

/-- `f(x) OVER (ORDER BY ... ROWS UNBOUNDED PRECEDING)` over rows in that order. -/
def running (acc : Option α) : List Row → List (Row × Option α)
  | [] => []
  | r :: rest => (r, Option.merge f acc (x r)) :: running (Option.merge f acc (x r)) rest

/-- The running aggregate of a row is that of the rows whose key is not behind its own. -/
theorem running_eq [Std.Associative f] {K : Type*} [LinearOrder K] (key : Row → K) {rows : List Row}
    (hrows : rows.Pairwise fun a b => key a < key b) (acc : Option α) :
    running f x acc rows = rows.map fun r =>
      (r, Option.merge f acc (aggregate f ((rows.filter fun s => decide (key s ≤ key r)).map x))) := by
  induction rows generalizing acc with
  | nil => rfl
  | cons r rest ih =>
    obtain ⟨hfirst, hrest⟩ := List.pairwise_cons.mp hrows
    have hnone : (rest.filter fun s => decide (key s ≤ key r)) = [] :=
      List.filter_eq_nil_iff.mpr fun s hs => by simpa using hfirst s hs
    rw [running, ih hrest, List.map_cons]
    refine congrArg₂ List.cons ?_ (List.map_congr_left fun s hs => ?_)
    · simp [hnone]
    · rw [List.filter_cons_of_pos (by simpa using (hfirst s hs).le), List.map_cons, aggregate_cons,
        merge_assoc]

end Windows

end Relational
