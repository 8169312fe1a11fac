import Mathlib

/-!
# Recurring instants and their slots

A recurrence is a set of instants, counted in integer ticks. Time is cut into slots of a fixed
width. A reading at an instant answers either with every member in the window of that width that
ends there, or with the latest member only. The latest one is enough where a slot that has
members has them at the same offsets as every other such slot: for a whole width from its first
member on, the latest member is in that slot. Readings a width apart at most leave no instant out.
-/

namespace Recurrence

variable {O : Set ℤ} {w a b o t x : ℤ}

/-- `x` is the latest member up to `t`. -/
def Latest (O : Set ℤ) (t x : ℤ) : Prop := IsGreatest {o ∈ O | o ≤ t} x

/-- `x` is the latest member after `a` and up to `b`. -/
def LatestIn (O : Set ℤ) (a b x : ℤ) : Prop := IsGreatest {o ∈ O | o ∈ Set.Ioc a b} x

theorem Latest.unique {y : ℤ} (hx : Latest O t x) (hy : Latest O t y) : x = y := IsGreatest.unique hx hy

theorem Latest.mem (h : Latest O t x) : x ∈ O := h.1.1

theorem Latest.le (h : Latest O t x) : x ≤ t := h.1.2

/-- Members up to `t` come no later than the latest. -/
theorem Latest.ge (h : Latest O t x) (ho : o ∈ O) (hot : o ≤ t) : o ≤ x := h.2 ⟨ho, hot⟩

/-- The latest member up to a later instant is the latest up to any instant it has come by. -/
theorem Latest.earlier (h : Latest O t x) (hxb : x ≤ b) (hbt : b ≤ t) : Latest O b x :=
  ⟨⟨h.mem, hxb⟩, fun _ ho => h.ge ho.1 (ho.2.trans hbt)⟩

/-- The latest member of all up to the end of a range is the latest in it, where it is in it. -/
theorem Latest.in (h : Latest O b x) (hax : a < x) : LatestIn O a b x :=
  ⟨⟨h.mem, hax, h.le⟩, fun _ ho => h.ge ho.1 ho.2.2⟩

/-- Members come at the same offsets of every slot that has any. -/
def Patterned (w : ℤ) (O : Set ℤ) : Prop :=
  ∃ slots offsets : Set ℤ, ∀ o, o ∈ O ↔ o / w ∈ slots ∧ o % w ∈ offsets

/-- The first member of a member's slot. -/
theorem exists_first_member (hw : 0 < w) (ho : o ∈ O) :
    ∃ first ∈ O, first / w = o / w ∧ first ≤ o ∧ ∀ p ∈ O, p / w = o / w → first ≤ p := by
  obtain ⟨first, ⟨hfirst, hslot⟩, hleast⟩ := Int.exists_least_of_bdd (P := fun p => p ∈ O ∧ p / w = o / w)
    ⟨o / w * w, fun p hp => by rw [← hp.2]; exact Int.ediv_mul_le p hw.ne'⟩ ⟨o, ho, rfl⟩
  exact ⟨first, hfirst, hslot, hleast o ⟨ho, rfl⟩, fun p hp hpo => hleast p ⟨hp, hpo⟩⟩

/-- For a whole width from the first member of a slot on, the latest member is one of that slot. -/
theorem Patterned.latest_slot (h : Patterned w O) (hw : 0 < w) (ho : o ∈ O)
    (hfirst : ∀ p ∈ O, p / w = o / w → o ≤ p) (hot : o ≤ t) (hlt : t < o + w) (hx : Latest O t x) :
    x / w = o / w := by
  obtain ⟨slots, offsets, hO⟩ := h
  have hge : o / w ≤ x / w := Int.ediv_le_ediv hw (hx.ge ho hot)
  by_contra hne
  have hlater : o / w + 1 ≤ x / w := by omega
  -- the offset of `x` in the slot of `o` is a member there, a width or more before `x`
  have hslot : (o / w * w + x % w) / w = o / w := by
    rw [Int.add_comm, Int.add_mul_ediv_right _ _ hw.ne', Int.ediv_eq_zero_of_lt (Int.emod_nonneg x hw.ne')
      (Int.emod_lt_of_pos x hw), zero_add]
  have hoffset : (o / w * w + x % w) % w = x % w := by
    rw [Int.add_comm, Int.add_mul_emod_self_right, Int.emod_emod]
  have hmem : o / w * w + x % w ∈ O := by
    rw [hO, hslot, hoffset]
    exact ⟨((hO o).mp ho).1, ((hO x).mp hx.mem).2⟩
  have hbefore := hfirst _ hmem hslot
  have hdiv := Int.mul_ediv_add_emod x w
  have hstep : (o / w + 1) * w ≤ x / w * w := Int.mul_le_mul_of_nonneg_right hlater hw.le
  have hxt := hx.le
  rw [add_one_mul] at hstep
  rw [mul_comm] at hdiv
  omega

section Readings

variable {times : List ℤ} {first last : ℤ}

/-- Readings that follow one another, the last one at the head, lie between the first and the last. -/
theorem reading_bounds (h : times.IsChain fun later earlier => earlier ≤ later) (hfirst : times.getLast? = some first)
    (hlast : times.head? = some last) : ∀ t ∈ times, first ≤ t ∧ t ≤ last := by
  induction times generalizing last with
  | nil => simp
  | cons t times ih =>
    obtain rfl := Option.some.inj hlast
    obtain ⟨hhead, hrest⟩ := List.isChain_cons.mp h
    cases times with
    | nil =>
      obtain rfl := Option.some.inj hfirst
      simp
    | cons earlier times =>
      rw [List.getLast?_cons_cons] at hfirst
      have hbounds := ih hrest hfirst rfl
      have hle : earlier ≤ t := hhead earlier rfl
      intro x hx
      rcases List.mem_cons.mp hx with rfl | hx
      · exact ⟨(hbounds earlier List.mem_cons_self).1.trans hle, le_rfl⟩
      · exact ⟨(hbounds x hx).1, (hbounds x hx).2.trans hle⟩

/-- Readings a width apart at most have every instant between the first window's start and the last reading
in a window. -/
theorem exists_reading (h : times.IsChain fun later earlier => later ≤ earlier + w) (hfirst : times.getLast? = some first)
    (hlast : times.head? = some last) (hx : first - w < x) (hxl : x ≤ last) : ∃ t ∈ times, x ∈ Set.Ioc (t - w) t := by
  induction times generalizing last with
  | nil => contradiction
  | cons t times ih =>
    obtain rfl := Option.some.inj hlast
    obtain ⟨hhead, hrest⟩ := List.isChain_cons.mp h
    cases times with
    | nil =>
      obtain rfl := Option.some.inj hfirst
      exact ⟨t, List.mem_cons_self, hx, hxl⟩
    | cons earlier times =>
      rw [List.getLast?_cons_cons] at hfirst
      have hnear : t ≤ earlier + w := hhead earlier rfl
      by_cases hbefore : x ≤ earlier
      · obtain ⟨t', ht', hin⟩ := ih hrest hfirst rfl hbefore
        exact ⟨t', List.mem_cons_of_mem _ ht', hin⟩
      · exact ⟨t, List.mem_cons_self, by omega, hxl⟩

end Readings

end Recurrence
