import Mathlib

/-!
# Insertion-ordered maps

A `Map` holds one entry for each key, in the order the keys were first set.
-/

namespace Ecma

/-- A `Map`, by its entries. -/
structure OrderedMap (κ ν : Type*) where
  entries : List (κ × ν)
  nodup : (entries.map Prod.fst).Nodup

namespace OrderedMap

variable {κ ν : Type*}

/-- `new Map()`. -/
def empty : OrderedMap κ ν := ⟨[], List.nodup_nil⟩

variable [DecidableEq κ] {m : OrderedMap κ ν} {k : κ} {v : ν} {e : κ × ν}

/-- The entries after `set`. -/
def setEntries (entries : List (κ × ν)) (k : κ) (v : ν) : List (κ × ν) :=
  if k ∈ entries.map Prod.fst then entries.map fun e => if e.1 = k then (k, v) else e else entries ++ [(k, v)]

theorem nodup_setEntries {entries : List (κ × ν)} (h : (entries.map Prod.fst).Nodup) :
    ((setEntries entries k v).map Prod.fst).Nodup := by
  unfold setEntries
  split_ifs with hk
  · have hkeys : (entries.map fun e => if e.1 = k then (k, v) else e).map Prod.fst = entries.map Prod.fst := by
      rw [List.map_map]
      refine List.map_congr_left fun e _ => ?_
      by_cases he : e.1 = k <;> simp [he]
    rwa [hkeys]
  · rw [List.map_append, List.nodup_append]
    refine ⟨h, by simp, fun a ha b hb => ?_⟩
    obtain rfl : b = k := by simpa using hb
    rintro rfl
    exact hk ha

/-- `set`. -/
def set (m : OrderedMap κ ν) (k : κ) (v : ν) : OrderedMap κ ν := ⟨setEntries m.entries k v, nodup_setEntries m.nodup⟩

/-- `get`. -/
def get (m : OrderedMap κ ν) (k : κ) : Option ν := (m.entries.find? fun e => e.1 = k).map Prod.snd

omit [DecidableEq κ] in
/-- A key has one entry. -/
theorem entry_unique {v' : ν} (h : (k, v) ∈ m.entries) (h' : (k, v') ∈ m.entries) : v = v' :=
  congrArg Prod.snd (List.inj_on_of_nodup_map m.nodup h h' rfl)

theorem get_eq_some_iff : m.get k = some v ↔ (k, v) ∈ m.entries := by
  unfold get
  constructor
  · intro h
    obtain ⟨e, he, rfl⟩ := Option.map_eq_some_iff.mp h
    have hkey := List.find?_some he
    rw [decide_eq_true_eq] at hkey
    exact hkey ▸ List.mem_of_find?_eq_some he
  · intro h
    cases hfind : m.entries.find? fun e => e.1 = k with
    | none => exact absurd (List.find?_eq_none.mp hfind _ h) (by simp)
    | some e =>
      have hkey := List.find?_some hfind
      rw [decide_eq_true_eq] at hkey
      have hmem : (k, e.2) ∈ m.entries := hkey ▸ List.mem_of_find?_eq_some hfind
      rw [Option.map_some, entry_unique hmem h]

theorem get_eq_none_iff : m.get k = none ↔ ∀ v, (k, v) ∉ m.entries := by
  rw [Option.eq_none_iff_forall_not_mem]
  exact forall_congr' fun v => not_congr get_eq_some_iff

/-- `set` leaves the entries of the other keys. -/
theorem mem_set : e ∈ (m.set k v).entries ↔ e = (k, v) ∨ e ∈ m.entries ∧ e.1 ≠ k := by
  simp only [set, setEntries]
  split_ifs with hk
  · obtain ⟨old, hold, holdkey⟩ := List.mem_map.mp hk
    simp only [List.mem_map]
    constructor
    · rintro ⟨e', he', rfl⟩
      by_cases hkey : e'.1 = k
      · exact .inl (by rw [if_pos hkey])
      · exact .inr (by rw [if_neg hkey]; exact ⟨he', hkey⟩)
    · rintro (rfl | ⟨he, hkey⟩)
      · exact ⟨old, hold, if_pos holdkey⟩
      · exact ⟨e, he, if_neg hkey⟩
  · have hother : ∀ {e}, e ∈ m.entries → e.1 ≠ k := by
      rintro e he rfl
      exact hk (List.mem_map_of_mem he)
    simp only [List.mem_append, List.mem_singleton]
    constructor
    · rintro (he | rfl)
      · exact .inr ⟨he, hother he⟩
      · exact .inl rfl
    · rintro (rfl | ⟨he, -⟩)
      · exact .inr rfl
      · exact .inl he

end OrderedMap

end Ecma
