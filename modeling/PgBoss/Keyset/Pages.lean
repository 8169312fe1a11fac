import PgBoss.Relational.OrderLimit

/-!
# Reading a table in pages

A page is the first rows past the last row of the page before, and the reading ends with an empty one. Where the
rows differ in the key they are ordered and compared by, the pages are the unpaged read cut up: every row once, in
its order.
-/

namespace Keyset

open Relational

variable {Row K : Type*}

/-- Page after page until one comes back empty. A read that fails ends it without a result. -/
def pages (read : Option Row → Option (List Row)) : ℕ → Option Row → Option (List (List Row))
  | 0, _ => none
  | fuel + 1, after => (read after).bind fun page =>
    match page.getLast? with
    | none => some []
    | some last => (pages read fuel (some last)).map (page :: ·)

variable [LinearOrder K] (key : Row → K)

/-- The order of a read. -/
def keyOrder (a b : Row) : Prop := key a ≤ key b

instance : DecidableRel (keyOrder key) := fun a b => inferInstanceAs (Decidable (key a ≤ key b))
instance : Std.Total (keyOrder key) := ⟨fun a b => le_total (key a) (key b)⟩
instance : IsTrans Row (keyOrder key) := ⟨fun _ _ _ hab hbc => le_trans hab hbc⟩

/-- The rows of the unpaged read. -/
def unpaged (p : Row → Bool) (rows : List Row) : List Row := (rows.filter p).insertionSort (keyOrder key)

/-- What paging a read should come to: it ends, and its pages put together are the unpaged read, with every row it
is for, once. -/
def VisitsOnce (read : Option Row → Option (List Row)) (p : Row → Bool) (rows : List Row) : Prop :=
  ∃ result, (∀ fuel, rows.length < fuel → pages read fuel none = some result) ∧
    result.flatten = unpaged key p rows ∧ result.flatten.Nodup ∧ ∀ r, r ∈ result.flatten ↔ r ∈ rows ∧ p r = true

/-- A read that refuses to go on from some rows. -/
def refusing (refused : Row → Bool) (read : Option Row → Option (List Row)) (after : Option Row) : Option (List Row) :=
  if after.any refused then none else read after

/-- The last rows of the pages that a list is cut into. -/
def EndsPage (size : ℕ) (l : List Row) (r : Row) : Prop :=
  ∃ i < l.length, l[i]? = some r ∧ (size ∣ i + 1 ∨ i + 1 = l.length)

instance [DecidableEq Row] (size : ℕ) (l : List Row) (r : Row) : Decidable (EndsPage size l r) :=
  inferInstanceAs (Decidable (∃ i < l.length, _))

variable {key} {read : Option Row → Option (List Row)} {size : ℕ} {l done rest : List Row} {r last : Row} {p : Row → Bool}
  {rows : List Row} {refused : Row → Bool}

/-- What a strictly ordered list has past one of its rows is what comes after it. -/
theorem filter_past (hsorted : (done ++ r :: rest).Pairwise fun a b => key a < key b) :
    (done ++ r :: rest).filter (fun s => decide (key r < key s)) = rest := by
  obtain ⟨-, htail, hacross⟩ := List.pairwise_append.mp hsorted
  have hdone : done.filter (fun s => decide (key r < key s)) = [] :=
    List.filter_eq_nil_iff.mpr fun s hs => by simpa using (hacross s hs r List.mem_cons_self).le
  have hrest : rest.filter (fun s => decide (key r < key s)) = rest :=
    List.filter_eq_self.mpr fun s hs => by simpa using (List.pairwise_cons.mp htail).1 s hs
  simp [List.filter_append, hdone, hrest]

/-- What is past the last row of a page is what the next one starts with. -/
theorem next_page (hsorted : l.Pairwise fun a b => key a < key b)
    (hnext : ∀ r ∈ l, read (some r) = some ((l.filter fun s => decide (key r < key s)).take size))
    (hl : l = done ++ rest) (hlast : (rest.take size).getLast? = some last) :
    (∃ done, l = done ++ rest.drop size) ∧ read (some last) = some ((rest.drop size).take size) := by
  obtain ⟨front, hfront⟩ := List.getLast?_eq_some_iff.mp hlast
  have hsplit : l = (done ++ front) ++ last :: rest.drop size := by
    rw [hl, List.append_assoc, ← List.singleton_append, ← List.append_assoc front, ← hfront, List.take_append_drop]
  have hpast : l.filter (fun s => decide (key last < key s)) = rest.drop size := by
    rw [hsplit] at hsorted ⊢
    exact filter_past hsorted
  have hmem : last ∈ l := by rw [hsplit]; simp
  refine ⟨⟨done ++ front ++ [last], ?_⟩, by rw [hnext last hmem, hpast]⟩
  rw [List.append_assoc, List.singleton_append]
  exact hsplit

/-- Reading on from a row of a strictly ordered list gives what comes after it, in pages. -/
theorem pages_from (hsize : 0 < size) (hsorted : l.Pairwise fun a b => key a < key b)
    (hnext : ∀ r ∈ l, read (some r) = some ((l.filter fun s => decide (key r < key s)).take size))
    (n : ℕ) (after : Option Row) (hlength : rest.length ≤ n) (hl : l = done ++ rest) (hread : read after = some (rest.take size)) :
    ∃ result, (∀ fuel, n < fuel → pages read fuel after = some result) ∧ result.flatten = rest := by
  induction n generalizing after done rest with
  | zero =>
    obtain rfl : rest = [] := List.length_eq_zero_iff.mp (by omega)
    refine ⟨[], fun fuel hfuel => ?_, rfl⟩
    obtain ⟨fuel, rfl⟩ := Nat.exists_eq_add_of_lt hfuel
    simp [pages, hread]
  | succ n ih =>
    cases hlast : (rest.take size).getLast? with
    | none =>
      obtain rfl : rest = [] := by
        rcases List.take_eq_nil_iff.mp (List.getLast?_eq_none_iff.mp hlast) with h | h
        · omega
        · exact h
      refine ⟨[], fun fuel hfuel => ?_, rfl⟩
      obtain ⟨fuel, rfl⟩ := Nat.exists_eq_add_of_lt hfuel
      simp [pages, hread]
    | some last =>
      obtain ⟨⟨done, hsplit⟩, hread'⟩ := next_page hsorted hnext hl hlast
      have hshorter : (rest.drop size).length ≤ n := by
        have hpos : 0 < rest.length := by
          cases rest with
          | nil => simp at hlast
          | cons => simp
        rw [List.length_drop]
        omega
      obtain ⟨result, hresult, hflatten⟩ := ih (some last) hshorter hsplit hread'
      refine ⟨rest.take size :: result, fun fuel hfuel => ?_, ?_⟩
      · obtain ⟨fuel, rfl⟩ := Nat.exists_eq_add_of_lt (Nat.zero_lt_of_lt hfuel)
        simp [pages, hread, hlast, hresult fuel (by omega)]
      · rw [List.flatten_cons, hflatten, List.take_append_drop]

/-- The last row of the first page, or of one of the pages after it. -/
theorem endsPage_iff (hsize : 0 < size) (hlast : (l.take size).getLast? = some last) :
    EndsPage size l r ↔ r = last ∨ EndsPage size (l.drop size) r := by
  rw [List.getLast?_eq_getElem?, List.length_take] at hlast
  have hpos : 0 < l.length := by
    cases l with
    | nil => simp at hlast
    | cons => simp
  rw [List.getElem?_take_of_lt (by omega)] at hlast
  constructor
  · rintro ⟨i, hi, hr, hend⟩
    by_cases hfirst : i < size
    · have hplace : i = min size l.length - 1 := by
        rcases hend with hdvd | hend
        · have := Nat.le_of_dvd i.succ_pos hdvd
          omega
        · omega
      exact .inl (Option.some.inj (by rw [← hr, hplace, hlast]))
    · refine .inr ⟨i - size, by rw [List.length_drop]; omega, ?_, ?_⟩
      · rw [List.getElem?_drop, ← hr]
        congr 1
        omega
      · rw [List.length_drop]
        refine hend.imp (fun hdvd => ?_) fun hend => by omega
        have hsub : i - size + 1 = i + 1 - size := by omega
        rw [hsub]
        exact Nat.dvd_sub hdvd dvd_rfl
  · rintro (rfl | ⟨i, hi, hr, hend⟩)
    · refine ⟨min size l.length - 1, by omega, hlast, ?_⟩
      rcases le_total size l.length with h | h
      · refine .inl ?_
        rw [min_eq_left h, Nat.sub_add_cancel hsize]
      · exact .inr (by omega)
    · rw [List.length_drop] at hi hend
      refine ⟨size + i, by omega, by rw [← hr, List.getElem?_drop], hend.imp (fun hdvd => ?_) fun hend => by omega⟩
      rw [add_assoc]
      exact (Nat.dvd_add_right dvd_rfl).mpr hdvd

theorem not_endsPage_nil : ¬ EndsPage size [] r := fun ⟨_, hi, _⟩ => Nat.not_lt_zero _ hi

theorem EndsPage.mem (h : EndsPage size l r) : r ∈ l := by
  obtain ⟨_, _, hr, _⟩ := h
  exact List.mem_of_getElem? hr

/-- A read that refuses some rows comes to the end where the other one does and none of them ends a page. -/
theorem pages_refusing (hsize : 0 < size) (hsorted : l.Pairwise fun a b => key a < key b)
    (hnext : ∀ r ∈ l, read (some r) = some ((l.filter fun s => decide (key r < key s)).take size))
    (fuel : ℕ) (after : Option Row) (result : List (List Row)) (hl : l = done ++ rest)
    (hread : read after = some (rest.take size)) (hafter : after.any refused = false) :
    pages (refusing refused read) fuel after = some result ↔
      pages read fuel after = some result ∧ ∀ r, EndsPage size rest r → refused r = false := by
  induction fuel generalizing after done rest result with
  | zero => simp [pages]
  | succ fuel ih =>
    have hgo : refusing refused read after = some (rest.take size) := by simp [refusing, hafter, hread]
    cases hlast : (rest.take size).getLast? with
    | none =>
      obtain rfl : rest = [] := by
        rcases List.take_eq_nil_iff.mp (List.getLast?_eq_none_iff.mp hlast) with h | h
        · omega
        · exact h
      simp [pages, hread, hgo, not_endsPage_nil]
    | some last =>
      obtain ⟨⟨done, hsplit⟩, hread'⟩ := next_page hsorted hnext hl hlast
      simp only [pages, hread, hgo, Option.bind_some, hlast, Option.map_eq_some_iff, endsPage_iff hsize hlast]
      cases hrefused : refused last with
      | false =>
        have hrest : (∀ r, r = last ∨ EndsPage size (rest.drop size) r → refused r = false) ↔
            ∀ r, EndsPage size (rest.drop size) r → refused r = false :=
          ⟨fun h r hr => h r (.inr hr), fun h r hr => hr.elim (fun heq => heq ▸ hrefused) (h r)⟩
        simp only [ih (some last) _ hsplit hread' hrefused, hrest]
        exact ⟨fun ⟨a, ⟨ha, hends⟩, heq⟩ => ⟨⟨a, ha, heq⟩, hends⟩, fun ⟨⟨a, ha, heq⟩, hends⟩ => ⟨a, ⟨ha, hends⟩, heq⟩⟩
      | true =>
        have hstop : pages (refusing refused read) fuel (some last) = none := by
          cases fuel with
          | zero => rfl
          | succ => simp [pages, refusing, hrefused]
        have hends : ¬ ∀ r, r = last ∨ EndsPage size (rest.drop size) r → refused r = false := fun h => by
          simpa [hrefused] using h last (.inl rfl)
        simp only [hstop, reduceCtorEq, false_and, exists_false, false_iff]
        exact fun h => hends h.2

/-- Rows of different keys are in strict order. -/
theorem unpaged_strict (hnodup : ((rows.filter p).map key).Nodup) : (unpaged key p rows).Pairwise fun a b => key a < key b := by
  have hperm : (unpaged key p rows).Perm (rows.filter p) := List.perm_insertionSort _ _
  have hkeys : ((unpaged key p rows).map key).Nodup := (hperm.map key).nodup_iff.mpr hnodup
  have hsorted : (unpaged key p rows).Pairwise (keyOrder key) := List.pairwise_insertionSort _ _
  exact (hsorted.and (List.pairwise_map.mp hkeys)).imp fun ⟨hle, hne⟩ => lt_of_le_of_ne hle hne

/-- Choosing rows before they are ordered or after is the same. -/
theorem insertionSort_filter (hnodup : ((rows.filter p).map key).Nodup) (q : Row → Bool) :
    ((rows.filter p).filter q).insertionSort (keyOrder key) = (unpaged key p rows).filter q := by
  have hstrict := unpaged_strict hnodup
  have hsub : (((rows.filter p).filter q).map key).Nodup := hnodup.sublist (List.filter_sublist.map key)
  have hstrict' : (((rows.filter p).filter q).insertionSort (keyOrder key)).Pairwise fun a b => key a < key b := by
    exact unpaged_strict hsub
  have hperm : (((rows.filter p).filter q).insertionSort (keyOrder key)).Perm ((unpaged key p rows).filter q) :=
    (List.perm_insertionSort _ _).trans ((List.perm_insertionSort (keyOrder key) (rows.filter p)).filter q).symm
  exact List.Perm.eq_of_pairwise (fun a b _ _ hab hba => absurd hba (not_lt_of_gt hab)) hstrict' (hstrict.filter q) hperm

/-- Choosing rows before repeats are dropped or after is the same. -/
theorem dedup_filter [DecidableEq Row] (q : Row → Bool) (rows : List Row) : (rows.filter q).dedup = rows.dedup.filter q := by
  induction rows with
  | nil => rfl
  | cons r rest ih =>
    by_cases hmem : r ∈ rest
    · rw [List.dedup_cons_of_mem hmem, ← ih, List.filter_cons]
      split_ifs with hq
      · exact List.dedup_cons_of_mem (List.mem_filter.mpr ⟨hmem, hq⟩)
      · rfl
    · rw [List.dedup_cons_of_notMem hmem, List.filter_cons, List.filter_cons]
      split_ifs with hq
      · rw [List.dedup_cons_of_notMem fun h => hmem (List.mem_filter.mp h).1, ih]
      · exact ih

/-- The first rows past one of a read's rows. -/
theorem read_past (hnodup : ((rows.filter p).map key).Nodup)
    (hnext : ∀ r ∈ rows, p r = true →
      read (some r) = some (orderLimit (keyOrder key) size (rows.filter fun s => p s && decide (key r < key s)))) :
    ∀ r ∈ unpaged key p rows, read (some r) = some (((unpaged key p rows).filter fun s => decide (key r < key s)).take size) := by
  intro r hr
  obtain ⟨hr, hp⟩ := List.mem_filter.mp ((List.perm_insertionSort (keyOrder key) (rows.filter p)).mem_iff.mp hr)
  rw [hnext r hr hp, orderLimit, ← insertionSort_filter hnodup, List.filter_filter]
  simp only [Bool.and_comm]

/-- A read whose order and comparison go by a key that tells its rows apart visits each of them once. -/
theorem visitsOnce (hsize : 0 < size) (hnodup : ((rows.filter p).map key).Nodup)
    (hfirst : read none = some (orderLimit (keyOrder key) size (rows.filter p)))
    (hnext : ∀ r ∈ rows, p r = true →
      read (some r) = some (orderLimit (keyOrder key) size (rows.filter fun s => p s && decide (key r < key s)))) :
    VisitsOnce key read p rows := by
  have hperm : (unpaged key p rows).Perm (rows.filter p) := List.perm_insertionSort _ _
  have hlength : (unpaged key p rows).length ≤ rows.length := hperm.length_eq.trans_le (List.length_filter_le _ _)
  obtain ⟨result, hresult, hflatten⟩ := pages_from hsize (unpaged_strict hnodup) (read_past hnodup hnext) rows.length none hlength
    (List.nil_append (unpaged key p rows)).symm hfirst
  refine ⟨result, hresult, hflatten, ?_, fun r => ?_⟩
  · rw [hflatten]
    exact (unpaged_strict hnodup).imp fun hlt heq => hlt.ne (congrArg key heq)
  · rw [hflatten, hperm.mem_iff, List.mem_filter]

/-- Where the read refuses some rows, it still does, unless one of them ends a page. -/
theorem visitsOnce_refusing (hsize : 0 < size) (hnodup : ((rows.filter p).map key).Nodup)
    (hfirst : read none = some (orderLimit (keyOrder key) size (rows.filter p)))
    (hnext : ∀ r ∈ rows, p r = true →
      read (some r) = some (orderLimit (keyOrder key) size (rows.filter fun s => p s && decide (key r < key s)))) :
    VisitsOnce key (refusing refused read) p rows ↔ ∀ r, EndsPage size (unpaged key p rows) r → refused r = false := by
  have hpages : ∀ fuel result, pages (refusing refused read) fuel none = some result ↔
      pages read fuel none = some result ∧ ∀ r, EndsPage size (unpaged key p rows) r → refused r = false := fun fuel result =>
    pages_refusing hsize (unpaged_strict hnodup) (read_past hnodup hnext) fuel none result
      (List.nil_append (unpaged key p rows)).symm hfirst rfl
  constructor
  · rintro ⟨result, hresult, -⟩
    exact ((hpages _ _).mp (hresult _ rows.length.lt_succ_self)).2
  · intro hends
    obtain ⟨result, hresult, hvisits⟩ := visitsOnce hsize hnodup hfirst hnext
    exact ⟨result, fun fuel hfuel => (hpages fuel result).mpr ⟨hresult fuel hfuel, hends⟩, hvisits⟩

end Keyset
