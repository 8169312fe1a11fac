import Mathlib

/-!
# Tables with partial unique indexes

A table is the list of its rows in heap order. A partial unique index gives each row it
covers a key, and no two rows of a table may hold the same key of one index. The file has
the three ways rows enter such a table: an insert that skips refused rows, an insert that
raises on a refused row, and an update that checks each new row version against the other
rows as they stand. Every one of them keeps a consistent table consistent.
-/

namespace Relational

universe u

/-- A partial unique index. A row outside the index predicate has no key. -/
structure UniqueIndex (Row : Type u) where
  Key : Type
  [decEq : DecidableEq Key]
  key : Row → Option Key

attribute [instance] UniqueIndex.decEq

variable {Row : Type u}

/-- Both rows are covered and hold the same key. -/
def UniqueIndex.clash (ix : UniqueIndex Row) (a b : Row) : Bool :=
  (ix.key a).isSome && decide (ix.key a = ix.key b)

/-- A clash is one key held by both rows. -/
theorem UniqueIndex.clash_iff (ix : UniqueIndex Row) (a b : Row) :
    ix.clash a b = true ↔ ∃ k, ix.key a = some k ∧ ix.key b = some k := by
  simp only [UniqueIndex.clash, Bool.and_eq_true, decide_eq_true_eq, Option.isSome_iff_exists]
  constructor
  · rintro ⟨⟨k, hk⟩, heq⟩
    exact ⟨k, hk, heq ▸ hk⟩
  · rintro ⟨k, ha, hb⟩
    exact ⟨⟨k, ha⟩, ha.trans hb.symm⟩

/-- The index on `key` over the rows where `covers` holds. A null key is held by no row. -/
def UniqueIndex.partialOn {K : Type} [DecidableEq K] (covers : Row → Prop) [DecidablePred covers]
    (key : Row → Option K) : UniqueIndex Row :=
  ⟨K, fun row => if covers row then key row else none⟩

theorem UniqueIndex.partialOn_clash {K : Type} [DecidableEq K] (covers : Row → Prop)
    [DecidablePred covers] (key : Row → Option K) (a b : Row) :
    (UniqueIndex.partialOn covers key).clash a b = true ↔
      covers a ∧ covers b ∧ (key a).isSome ∧ key a = key b := by
  by_cases ha : covers a <;> by_cases hb : covers b <;>
    simp [UniqueIndex.clash, UniqueIndex.partialOn, ha, hb]
  exact fun h hnone => by simp [hnone] at h

/-- Some index of the table has the two rows at one key. -/
def clashes (indexes : List (UniqueIndex Row)) (a b : Row) : Bool :=
  indexes.any fun ix => ix.clash a b

theorem clashes_iff (indexes : List (UniqueIndex Row)) (a b : Row) :
    clashes indexes a b = true ↔ ∃ ix ∈ indexes, ix.clash a b = true := List.any_eq_true

/-- Clashing does not depend on which row came first. -/
theorem clashes_symm (indexes : List (UniqueIndex Row)) (a b : Row) :
    clashes indexes a b = clashes indexes b a := by
  have hsymm (ix : UniqueIndex Row) (a b : Row) (h : ix.clash a b = true) : ix.clash b a = true := by
    obtain ⟨k, ha, hb⟩ := (ix.clash_iff a b).mp h
    exact (ix.clash_iff b a).mpr ⟨k, hb, ha⟩
  rw [Bool.eq_iff_iff, clashes_iff, clashes_iff]
  exact ⟨fun ⟨ix, hix, h⟩ => ⟨ix, hix, hsymm ix a b h⟩, fun ⟨ix, hix, h⟩ => ⟨ix, hix, hsymm ix b a h⟩⟩

/-- No two rows of the table clash. -/
def Consistent (indexes : List (UniqueIndex Row)) (rows : List Row) : Prop :=
  rows.Pairwise fun a b => clashes indexes a b = false

instance (indexes : List (UniqueIndex Row)) (rows : List Row) :
    Decidable (Consistent indexes rows) := inferInstanceAs (Decidable (List.Pairwise _ _))

/-- The row cannot enter the table: a row already there holds one of its keys. -/
def refused (indexes : List (UniqueIndex Row)) (rows : List Row) (row : Row) : Bool :=
  rows.any (clashes indexes row)

theorem refused_iff (indexes : List (UniqueIndex Row)) (rows : List Row) (row : Row) :
    refused indexes rows row = true ↔ ∃ r ∈ rows, clashes indexes row r = true := List.any_eq_true

theorem not_refused_iff (indexes : List (UniqueIndex Row)) (rows : List Row) (row : Row) :
    refused indexes rows row = false ↔ ∀ r ∈ rows, clashes indexes row r = false := by
  simp [refused]

section Consistency

variable {indexes : List (UniqueIndex Row)} {rows rows' : List Row}

@[simp] theorem consistent_nil : Consistent indexes [] := List.Pairwise.nil

theorem consistent_cons {row : Row} :
    Consistent indexes (row :: rows) ↔ refused indexes rows row = false ∧ Consistent indexes rows := by
  rw [Consistent, List.pairwise_cons, not_refused_iff, Consistent]

/-- Consistency does not depend on the heap order. -/
theorem Consistent.perm (h : Consistent indexes rows) (hperm : rows.Perm rows') :
    Consistent indexes rows' :=
  List.Pairwise.perm h hperm fun hab => (clashes_symm indexes _ _).trans hab

theorem Consistent.sublist (h : Consistent indexes rows) (hsub : rows'.Sublist rows) :
    Consistent indexes rows' := List.Pairwise.sublist hsub h

theorem Consistent.filter (h : Consistent indexes rows) (p : Row → Bool) :
    Consistent indexes (rows.filter p) := h.sublist List.filter_sublist

theorem consistent_append :
    Consistent indexes (rows ++ rows') ↔ Consistent indexes rows ∧ Consistent indexes rows' ∧
      ∀ a ∈ rows, ∀ b ∈ rows', clashes indexes a b = false := List.pairwise_append

theorem Consistent.concat {row : Row} (h : Consistent indexes rows)
    (hrow : refused indexes rows row = false) : Consistent indexes (rows ++ [row]) := by
  refine consistent_append.mpr ⟨h, List.pairwise_singleton _ _, fun a ha b hb => ?_⟩
  rw [List.mem_singleton.mp hb, clashes_symm]
  exact (not_refused_iff _ _ _).mp hrow a ha

/-- Two rows of a consistent table clash only when they are the same occurrence. -/
theorem Consistent.eq_of_clashes (h : Consistent indexes rows) {a b : Row} (ha : a ∈ rows)
    (hb : b ∈ rows) (hab : clashes indexes a b = true) : a = b := by
  by_contra hne
  have hsymm : Std.Symm fun a b => clashes indexes a b = false :=
    ⟨fun a b h => (clashes_symm indexes b a).trans h⟩
  have hfalse := List.Pairwise.forall h ha hb hne
  simp [hab] at hfalse

/-- Rows that clash with themselves are not repeated. -/
theorem Consistent.nodup (hself : ∀ row, clashes indexes row row = true) (h : Consistent indexes rows) :
    rows.Nodup := by
  refine List.Pairwise.imp (fun {a b} hab heq => ?_) h
  subst heq
  simp [hself a] at hab

/-- A key that implies a clash picks out one row. -/
theorem Consistent.filter_eq_singleton {K : Type*} [DecidableEq K] {key : Row → K}
    (hkey : ∀ a b, key a = key b → clashes indexes a b = true) (h : Consistent indexes rows)
    {row : Row} (hrow : row ∈ rows) : (rows.filter fun r => decide (key r = key row)) = [row] := by
  have hnodup := (h.nodup fun r => hkey r r rfl).filter fun r => decide (key r = key row)
  have honly : ∀ r ∈ rows.filter fun r => decide (key r = key row), r = row := by
    intro r hr
    obtain ⟨hr, heq⟩ := List.mem_filter.mp hr
    exact h.eq_of_clashes hr hrow (hkey _ _ (of_decide_eq_true heq))
  have hmem : row ∈ rows.filter fun r => decide (key r = key row) :=
    List.mem_filter.mpr ⟨hrow, decide_eq_true rfl⟩
  match hlist : rows.filter fun r => decide (key r = key row), hnodup, honly, hmem with
  | [], _, _, hmem => simp at hmem
  | [r], _, honly, _ => rw [honly r List.mem_cons_self]
  | r :: s :: rest, hnodup, honly, _ =>
    have hr := honly r List.mem_cons_self
    have hs := honly s (List.mem_cons_of_mem _ List.mem_cons_self)
    simp [hr, hs] at hnodup

/-- Of the rows that any two of would clash, the table holds at most one. -/
theorem Consistent.filter_length_le_one {p : Row → Bool}
    (hclash : ∀ a b, p a = true → p b = true → clashes indexes a b = true) (h : Consistent indexes rows) :
    (rows.filter p).length ≤ 1 := by
  have hrows : ∀ r ∈ rows.filter p, p r = true := fun r hr => (List.mem_filter.mp hr).2
  match hlist : rows.filter p, h.filter p with
  | [], _ => simp
  | [_], _ => simp
  | a :: b :: _, hpairs =>
    rw [hlist] at hrows
    have hab := (List.pairwise_cons.mp hpairs).1 b List.mem_cons_self
    have ha := hrows a List.mem_cons_self
    have hb := hrows b (List.mem_cons_of_mem _ List.mem_cons_self)
    simp [hclash a b ha hb] at hab

end Consistency

/-- `INSERT ... ON CONFLICT DO NOTHING`: the table afterwards and the rows that entered it. -/
def insertOrSkip (indexes : List (UniqueIndex Row)) : List Row → List Row → List Row × List Row
  | rows, [] => (rows, [])
  | rows, row :: rest =>
    if refused indexes rows row then insertOrSkip indexes rows rest
    else
      let out := insertOrSkip indexes (rows ++ [row]) rest
      (out.1, row :: out.2)

/-- `INSERT` with no conflict clause: one refused row raises. -/
def insertOrRaise (indexes : List (UniqueIndex Row)) : List Row → List Row → Option (List Row)
  | rows, [] => some rows
  | rows, row :: rest =>
    if refused indexes rows row then none else insertOrRaise indexes (rows ++ [row]) rest

/-- `UPDATE`: rows are replaced in scan order, and each new version is checked against the
rows before it as updated and the rows after it as they still are. -/
def updateScan (indexes : List (UniqueIndex Row)) (set : Row → Option Row) :
    List Row → List Row → Option (List Row)
  | done, [] => some done
  | done, row :: rest =>
    match set row with
    | none => updateScan indexes set (done ++ [row]) rest
    | some row' =>
      if refused indexes (done ++ rest) row' then none
      else updateScan indexes set (done ++ [row']) rest

/-- `UPDATE` over a whole table. -/
def updateRows (indexes : List (UniqueIndex Row)) (set : Row → Option Row) (rows : List Row) :
    Option (List Row) := updateScan indexes set [] rows

section Insert

variable {indexes : List (UniqueIndex Row)}

/-- The skipping insert appends exactly the rows it reports. -/
theorem insertOrSkip_rows (rows new : List Row) :
    (insertOrSkip indexes rows new).1 = rows ++ (insertOrSkip indexes rows new).2 := by
  induction new generalizing rows with
  | nil => simp [insertOrSkip]
  | cons row rest ih =>
    by_cases h : refused indexes rows row = true
    · simpa [insertOrSkip, h] using ih rows
    · simpa [insertOrSkip, h] using ih (rows ++ [row])

/-- The reported rows are some of the offered ones, in order. -/
theorem insertOrSkip_sublist (rows new : List Row) :
    (insertOrSkip indexes rows new).2.Sublist new := by
  induction new generalizing rows with
  | nil => simp [insertOrSkip]
  | cons row rest ih =>
    by_cases h : refused indexes rows row = true
    · simpa [insertOrSkip, h] using (ih rows).cons row
    · simpa [insertOrSkip, h] using (ih (rows ++ [row])).cons_cons row

theorem insertOrSkip_consistent {rows : List Row} (h : Consistent indexes rows) (new : List Row) :
    Consistent indexes (insertOrSkip indexes rows new).1 := by
  induction new generalizing rows with
  | nil => simpa [insertOrSkip] using h
  | cons row rest ih =>
    by_cases hr : refused indexes rows row = true
    · simpa [insertOrSkip, hr] using ih h
    · simpa [insertOrSkip, hr] using ih (h.concat (by simpa using hr))

/-- A row that is offered enters the table, or one it clashes with is there. -/
theorem insertOrSkip_settles {rows new : List Row} {row : Row} (h : row ∈ new) :
    row ∈ (insertOrSkip indexes rows new).2 ∨ ∃ r ∈ (insertOrSkip indexes rows new).1, clashes indexes row r = true := by
  induction new generalizing rows with
  | nil => contradiction
  | cons head rest ih =>
    by_cases hr : refused indexes rows head = true
    · simp only [insertOrSkip, hr, if_true]
      rcases List.mem_cons.mp h with rfl | h
      · obtain ⟨r, hrows, hclash⟩ := (refused_iff _ _ _).mp hr
        exact .inr ⟨r, by rw [insertOrSkip_rows]; exact List.mem_append_left _ hrows, hclash⟩
      · exact ih h
    · simp only [insertOrSkip, hr, if_false, Bool.false_eq_true]
      rcases List.mem_cons.mp h with rfl | h
      · exact .inl List.mem_cons_self
      · exact (ih h).imp_left (List.mem_cons_of_mem _)

/-- The raising insert appends every offered row or none. -/
theorem insertOrRaise_eq_some {rows new out : List Row}
    (h : insertOrRaise indexes rows new = some out) : out = rows ++ new := by
  induction new generalizing rows with
  | nil => simpa [insertOrRaise] using h.symm
  | cons row rest ih =>
    by_cases hr : refused indexes rows row = true
    · simp [insertOrRaise, hr] at h
    · rw [insertOrRaise, if_neg hr] at h
      simpa using ih h

theorem insertOrRaise_consistent {rows new out : List Row} (hrows : Consistent indexes rows)
    (h : insertOrRaise indexes rows new = some out) : Consistent indexes out := by
  induction new generalizing rows with
  | nil => simpa [insertOrRaise] using (Option.some.inj h) ▸ hrows
  | cons row rest ih =>
    by_cases hr : refused indexes rows row = true
    · simp [insertOrRaise, hr] at h
    · rw [insertOrRaise, if_neg hr] at h
      exact ih (hrows.concat (by simpa using hr)) h

/-- Rows that clash neither with the table nor with each other are all accepted. -/
theorem insertOrRaise_of_consistent {rows new : List Row} (h : Consistent indexes (rows ++ new)) :
    insertOrRaise indexes rows new = some (rows ++ new) := by
  induction new generalizing rows with
  | nil => simp [insertOrRaise]
  | cons row rest ih =>
    have hrow : refused indexes rows row = false := by
      refine (not_refused_iff _ _ _).mpr fun r hr => ?_
      rw [clashes_symm]
      exact (consistent_append.mp h).2.2 r hr row List.mem_cons_self
    rw [insertOrRaise, if_neg (by simp [hrow])]
    have hrest : Consistent indexes ((rows ++ [row]) ++ rest) := by simpa using h
    simpa using ih hrest

end Insert

section Update

variable {indexes : List (UniqueIndex Row)} {set : Row → Option Row}

/-- A successful update replaced exactly the rows it selected. -/
theorem updateScan_eq_some {done rows out : List Row}
    (h : updateScan indexes set done rows = some out) :
    out = done ++ rows.map fun row => (set row).getD row := by
  induction rows generalizing done with
  | nil => simpa [updateScan] using h.symm
  | cons row rest ih =>
    rw [updateScan] at h
    cases hset : set row with
    | none =>
      rw [hset] at h
      simpa [hset] using ih h
    | some row' =>
      simp only [hset] at h
      split at h
      · contradiction
      · simpa [hset] using ih h

theorem updateRows_eq_some {rows out : List Row} (h : updateRows indexes set rows = some out) :
    out = rows.map fun row => (set row).getD row := by
  simpa using updateScan_eq_some h

/-- An update is decided by what it does with the rows there are. -/
theorem updateScan_congr {set' : Row → Option Row} {done rows : List Row} (h : ∀ row ∈ rows, set row = set' row) :
    updateScan indexes set done rows = updateScan indexes set' done rows := by
  induction rows generalizing done with
  | nil => rfl
  | cons row rest ih =>
    have hrest := fun r hr => h r (List.mem_cons_of_mem _ hr)
    simp only [updateScan, h row List.mem_cons_self]
    split
    · exact ih hrest
    · split
      · rfl
      · exact ih hrest

theorem updateScan_consistent {done rows out : List Row} (hrows : Consistent indexes (done ++ rows))
    (h : updateScan indexes set done rows = some out) : Consistent indexes out := by
  induction rows generalizing done with
  | nil =>
    rw [updateScan, Option.some.injEq] at h
    simpa [← h] using hrows
  | cons row rest ih =>
    rw [updateScan] at h
    have hrest : Consistent indexes (done ++ rest) :=
      hrows.sublist ((List.sublist_cons_self row rest).append_left done)
    cases hset : set row with
    | none =>
      rw [hset] at h
      exact ih (by simpa using hrows) h
    | some row' =>
      simp only [hset] at h
      split at h
      · contradiction
      · rename_i hfree
        refine ih ?_ h
        have hcons := consistent_cons.mpr ⟨Bool.not_eq_true _ ▸ hfree, hrest⟩
        rw [List.append_assoc]
        exact hcons.perm List.perm_middle.symm

theorem updateRows_consistent {rows out : List Row} (hrows : Consistent indexes rows)
    (h : updateRows indexes set rows = some out) : Consistent indexes out :=
  have hall : Consistent indexes ([] ++ rows) := by simpa using hrows
  updateScan_consistent hall h

/-- An update raises nothing when no new version clashes with another row, old or new. -/
theorem updateScan_of_free (set : Row → Option Row) (done rows : List Row)
    (hdone : ∀ row ∈ rows, ∀ row', set row = some row' → refused indexes done row' = false)
    (hold : rows.Pairwise fun a b =>
      (∀ a', set a = some a' → clashes indexes a' b = false) ∧
      ∀ b', set b = some b' → clashes indexes b' ((set a).getD a) = false) :
    updateScan indexes set done rows = some (done ++ rows.map fun row => (set row).getD row) := by
  induction rows generalizing done with
  | nil => simp [updateScan]
  | cons row rest ih =>
    obtain ⟨hrow, hrest⟩ := List.pairwise_cons.mp hold
    have hnext : ∀ r ∈ rest, ∀ r', set r = some r' →
        refused indexes (done ++ [(set row).getD row]) r' = false := by
      intro r hr r' hr'
      have hd := hdone r (List.mem_cons_of_mem _ hr) r' hr'
      rw [not_refused_iff] at hd ⊢
      intro x hx
      rcases List.mem_append.mp hx with hx | hx
      · exact hd x hx
      · rw [List.mem_singleton.mp hx]
        exact (hrow r hr).2 r' hr'
    have hstep := ih _ hnext hrest
    rw [updateScan]
    cases hset : set row with
    | none => simpa [hset] using hstep
    | some row' =>
      have hfree : refused indexes (done ++ rest) row' = false := by
        have hd := hdone row List.mem_cons_self row' hset
        rw [not_refused_iff] at hd ⊢
        intro x hx
        rcases List.mem_append.mp hx with hx | hx
        · exact hd x hx
        · exact (hrow x hx).1 row' hset
      simpa [hset, hfree] using hstep

end Update

end Relational
