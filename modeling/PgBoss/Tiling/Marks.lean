import Mathlib

/-!
# Moves of a mark

A mark moves forward over a linear order. A move takes in some of the points between where the mark
was and where it is, and passes over others. Where each move starts at the mark that the move before
it left, no point is taken in twice, and from the first mark on every point is taken in or passed over.
-/

namespace Tiling

variable {α : Type*} [LinearOrder α]

/-- A move: where the mark was, where it is, the points taken in and those passed over. -/
structure Move (α : Type*) where
  before : Option α
  after : α
  taken : Set α
  passed : Set α

/-- A move goes forward, and takes in nothing but points in between; from a mark on it leaves none out. -/
structure Move.Fits (m : Move α) : Prop where
  forward : ∀ b, m.before = some b → b ≤ m.after
  behind : ∀ x ∈ m.taken, x < m.after
  ahead : ∀ b, m.before = some b → ∀ x ∈ m.taken, b ≤ x
  whole : ∀ b, m.before = some b → ∀ x ∈ Set.Ico b m.after, x ∈ m.taken ∨ x ∈ m.passed

/-- Moves, the last one first, each from the mark that the one before it left. -/
def Linked (moves : List (Move α)) : Prop :=
  moves.IsChain fun later earlier => later.before = some earlier.after

variable {moves : List (Move α)} {first last m : Move α} {x : α}

/-- A mark that a move left is no later than the marks that later moves leave. -/
theorem Linked.after_le (hlinked : Linked (m :: moves)) (hfits : ∀ a ∈ m :: moves, a.Fits) :
    ∀ a ∈ moves, ∃ b, m.before = some b ∧ a.after ≤ b := by
  induction moves generalizing m with
  | nil => simp
  | cons earlier moves ih =>
    obtain ⟨hhead, hrest⟩ := List.isChain_cons.mp hlinked
    have hbefore : m.before = some earlier.after := hhead earlier rfl
    have hforward := (hfits earlier (List.mem_cons_of_mem _ List.mem_cons_self)).forward
    intro a ha
    rcases List.mem_cons.mp ha with rfl | ha
    · exact ⟨_, hbefore, le_rfl⟩
    · obtain ⟨b, hb, hle⟩ := ih hrest (fun a ha => hfits a (List.mem_cons_of_mem _ ha)) a ha
      exact ⟨_, hbefore, hle.trans (hforward b hb)⟩

/-- No point is taken in twice. -/
theorem Linked.disjoint (hlinked : Linked moves) (hfits : ∀ a ∈ moves, a.Fits) :
    moves.Pairwise fun later earlier => Disjoint later.taken earlier.taken := by
  induction moves with
  | nil => exact .nil
  | cons m moves ih =>
    refine List.pairwise_cons.mpr ⟨fun a ha => Set.disjoint_left.mpr fun x hx hxa => ?_,
      ih (List.isChain_cons.mp hlinked).2 fun a ha => hfits a (List.mem_cons_of_mem _ ha)⟩
    obtain ⟨b, hb, hle⟩ := hlinked.after_le hfits a ha
    have hbehind := (hfits a (List.mem_cons_of_mem _ ha)).behind x hxa
    have hahead := (hfits m List.mem_cons_self).ahead b hb x hx
    exact absurd (hbehind.trans_le hle) (not_lt.mpr hahead)

/-- From the first mark on, every point up to the last is taken in or passed over. -/
theorem Linked.covers (hlinked : Linked moves) (hfits : ∀ a ∈ moves, a.Fits) (hfirst : moves.getLast? = some first)
    (hlast : moves.head? = some last) (hx : x ∈ Set.Ico first.after last.after) :
    ∃ a ∈ moves, x ∈ a.taken ∨ x ∈ a.passed := by
  induction moves generalizing last with
  | nil => contradiction
  | cons m moves ih =>
    obtain rfl := Option.some.inj hlast
    obtain ⟨hhead, hrest⟩ := List.isChain_cons.mp hlinked
    cases moves with
    | nil =>
      obtain rfl := Option.some.inj hfirst
      exact absurd hx.1 (not_le.mpr hx.2)
    | cons earlier moves =>
      rw [List.getLast?_cons_cons] at hfirst
      by_cases hbefore : x < earlier.after
      · obtain ⟨a, ha, htaken⟩ := ih hrest (fun a ha => hfits a (List.mem_cons_of_mem _ ha)) hfirst rfl ⟨hx.1, hbefore⟩
        exact ⟨a, List.mem_cons_of_mem _ ha, htaken⟩
      · exact ⟨m, List.mem_cons_self, (hfits m List.mem_cons_self).whole _ (hhead earlier rfl) x
          ⟨not_lt.mp hbefore, hx.2⟩⟩

/-- What is counted one by the member of a list that has it, and by no other, is one in all. -/
theorem sum_eq_one {β : Type*} {l : List β} {has : β → Prop} {tally : β → ℕ}
    (hapart : l.Pairwise fun a b => ¬ (has a ∧ has b)) (hex : ∃ a ∈ l, has a) (hone : ∀ a ∈ l, has a → tally a = 1)
    (hzero : ∀ a ∈ l, ¬ has a → tally a = 0) : (l.map tally).sum = 1 := by
  induction l with
  | nil => simp at hex
  | cons b l ih =>
    obtain ⟨hb, hrest⟩ := List.pairwise_cons.mp hapart
    rw [List.map_cons, List.sum_cons]
    by_cases hhas : has b
    · have hothers : ∀ n ∈ l.map tally, n = 0 := by
        intro n hn
        obtain ⟨a, ha, rfl⟩ := List.mem_map.mp hn
        exact hzero a (List.mem_cons_of_mem _ ha) fun hhas' => hb a ha ⟨hhas, hhas'⟩
      rw [hone b List.mem_cons_self hhas, List.sum_eq_zero hothers, add_zero]
    · rw [hzero b List.mem_cons_self hhas, zero_add]
      refine ih hrest ?_ (fun a ha => hone a (List.mem_cons_of_mem _ ha)) fun a ha => hzero a (List.mem_cons_of_mem _ ha)
      obtain ⟨a, ha, hhasa⟩ := hex
      rcases List.mem_cons.mp ha with rfl | ha
      · exact absurd hhasa hhas
      · exact ⟨a, ha, hhasa⟩

end Tiling
