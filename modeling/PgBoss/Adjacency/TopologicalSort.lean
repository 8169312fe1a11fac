import PgBoss.Adjacency.Graph

/-!
# Topological sort by counting edges

The vertices no edge enters wait in a queue. Taking a vertex off the queue takes the edges that
leave it away, and a vertex whose last edge goes joins the queue. The vertices taken off the
queue are all of them exactly if the graph has no cycle.
-/

namespace Adjacency

open Relation

variable {V : Type*} [DecidableEq V] {g : Adjacency V} {v : V} {inDegree : V → ℤ} {queue done : List V} {visited : ℕ}

/-- Takes one edge away for each of the vertices; one that no edge enters any more joins the queue. -/
def release (inDegree : V → ℤ) (queue : List V) : List V → (V → ℤ) × List V
  | [] => (inDegree, queue)
  | child :: rest =>
    let newDeg := inDegree child - 1
    release (Function.update inDegree child newDeg) (if newDeg = 0 then queue ++ [child] else queue) rest

/-- The vertices that edges still enter. -/
def entered (g : Adjacency V) (inDegree : V → ℤ) : Finset V := {v ∈ g.targets.toFinset | 0 < inDegree v}

/-- Each vertex that joins the queue stops being entered. -/
theorem release_entered {children : List V} (hmem : ∀ c ∈ children, c ∈ g.targets) :
    (g.entered (release inDegree queue children).1).card + (release inDegree queue children).2.length ≤
      (g.entered inDegree).card + queue.length := by
  induction children generalizing inDegree queue with
  | nil => rfl
  | cons c rest ih =>
    refine (ih fun x hx => hmem x (List.mem_cons_of_mem _ hx)).trans ?_
    have hsub : g.entered (Function.update inDegree c (inDegree c - 1)) ⊆ g.entered inDegree := by
      intro v hv
      rw [entered, Finset.mem_filter] at hv ⊢
      refine ⟨hv.1, ?_⟩
      by_cases hvc : v = c
      · subst hvc
        have hpos := hv.2
        rw [Function.update_self] at hpos
        omega
      · simpa [hvc] using hv.2
    by_cases hzero : inDegree c - 1 = 0
    · have hin : c ∈ g.entered inDegree :=
        Finset.mem_filter.mpr ⟨List.mem_toFinset.mpr (hmem c List.mem_cons_self), by omega⟩
      have hout : c ∉ g.entered (Function.update inDegree c (inDegree c - 1)) := by simp [entered, hzero]
      have hlt := Finset.card_lt_card (Finset.ssubset_iff_of_subset hsub |>.mpr ⟨c, hin, hout⟩)
      simp only [hzero, if_true, List.length_append, List.length_singleton] at hlt ⊢
      omega
    · rw [if_neg hzero]
      exact Nat.add_le_add_right (Finset.card_le_card hsub) _

theorem mem_targets_of_edge {w : V} (h : g.Edge v w) : w ∈ g.targets := by
  rw [Edge, children] at h
  cases hfind : g.find? (·.1 = v) with
  | none => simp [hfind] at h
  | some p => exact List.mem_flatMap.mpr ⟨p, List.mem_of_find?_eq_some hfind, by simpa [hfind] using h⟩

/-- Takes vertices off the queue until it is empty, and counts them. -/
def drain (g : Adjacency V) (inDegree : V → ℤ) : (queue : List V) → (visited : ℕ) → ℕ
  | [], visited => visited
  | current :: queue, visited =>
    drain g (release inDegree queue (g.children current)).1 (release inDegree queue (g.children current)).2 (visited + 1)
termination_by queue => (g.entered inDegree).card + queue.length
decreasing_by
  have hle : (g.entered (release inDegree queue (g.children current)).1).card +
      (release inDegree queue (g.children current)).2.length ≤ (g.entered inDegree).card + queue.length :=
    release_entered fun c hc => mem_targets_of_edge (g := g) (v := current) hc
  simp only [List.length_cons]
  omega

theorem count_cons_cast (c v : V) (rest : List V) :
    ((c :: rest).count v : ℤ) = rest.count v + if c = v then 1 else 0 := by
  rw [List.count_cons]
  by_cases hc : c = v <;> simp [hc]

theorem release_inDegree {children : List V} (v : V) :
    (release inDegree queue children).1 v = inDegree v - children.count v := by
  induction children generalizing inDegree queue with
  | nil => simp [release]
  | cons c rest ih =>
    rw [release, ih, count_cons_cast]
    by_cases hc : c = v
    · subst hc
      rw [Function.update_self, if_pos rfl]
      omega
    · rw [Function.update_of_ne (Ne.symm hc), if_neg hc, add_zero]

/-- No vertex is in the list more often than edges enter it: so it is in the rest of the list. -/
theorem count_rest_le {c : V} {rest : List V} (hle : ∀ v, ((c :: rest).count v : ℤ) ≤ inDegree v) (v : V) :
    (rest.count v : ℤ) ≤ Function.update inDegree c (inDegree c - 1) v := by
  have hv := hle v
  rw [count_cons_cast] at hv
  by_cases hc : v = c
  · subst hc
    rw [if_pos rfl] at hv
    rw [Function.update_self]
    omega
  · rw [if_neg (Ne.symm hc)] at hv
    rw [Function.update_of_ne hc]
    omega

/-- A vertex joins the queue if the list holds all its edges. -/
theorem mem_release {children : List V} (hle : ∀ v, (children.count v : ℤ) ≤ inDegree v) :
    v ∈ (release inDegree queue children).2 ↔ v ∈ queue ∨ v ∈ children ∧ inDegree v = children.count v := by
  induction children generalizing inDegree queue with
  | nil => simp [release]
  | cons c rest ih =>
    rw [release, ih (count_rest_le hle), count_cons_cast, List.mem_cons]
    by_cases hc : v = c
    · subst hc
      have hv := hle v
      rw [count_cons_cast, if_pos rfl] at hv
      have hin : v ∈ rest ↔ 0 < rest.count v := List.count_pos_iff.symm
      rw [Function.update_self, if_pos rfl, hin]
      split
      case isTrue hzero =>
        simp only [List.mem_append, List.mem_singleton, or_true, true_or, true_and, true_iff]
        omega
      case isFalse hzero =>
        simp only [true_or, true_and]
        refine or_congr_right ?_
        omega
    · rw [Function.update_of_ne hc, if_neg (Ne.symm hc), add_zero]
      have hqueue : v ∈ (if inDegree c - 1 = 0 then queue ++ [c] else queue) ↔ v ∈ queue := by
        split <;> simp [hc]
      rw [hqueue]
      simp [hc]

/-- No vertex joins the queue twice. -/
theorem release_nodup {children : List V} (hle : ∀ v, (children.count v : ℤ) ≤ inDegree v) (hqueue : queue.Nodup)
    (hzero : ∀ v ∈ queue, inDegree v ≤ 0) : (release inDegree queue children).2.Nodup := by
  induction children generalizing inDegree queue with
  | nil => exact hqueue
  | cons c rest ih =>
    have hc : 1 ≤ inDegree c := by
      have hc := hle c
      rw [count_cons_cast, if_pos rfl] at hc
      omega
    have hout : c ∉ queue := fun hin => absurd (hzero c hin) (by omega)
    refine ih (count_rest_le hle) ?_ fun v hv => ?_
    · split
      · exact List.nodup_append.mpr ⟨hqueue, List.nodup_singleton c, fun v hv w hw hvw =>
          hout (List.mem_singleton.mp hw ▸ hvw ▸ hv)⟩
      · exact hqueue
    · by_cases hcv : v = c
      · subst hcv
        rw [Function.update_self]
        split at hv
        case isTrue h => exact h.le
        case isFalse => exact absurd hv hout
      · rw [Function.update_of_ne hcv]
        refine hzero v ?_
        split at hv
        · exact (List.mem_append.mp hv).resolve_right fun h => hcv (List.mem_singleton.mp h)
        · exact hv

/-- The edges of a vertex that is taken are no longer counted. -/
theorem count_targets_taken (hnodup : g.keys.Nodup) {current : V} (hmem : current ∈ g.keys) (hnew : current ∉ done) :
    (targets (g.filter (·.1 ∉ done))).count v =
      (g.children current).count v + (targets (g.filter (·.1 ∉ current :: done))).count v := by
  induction g with
  | nil => contradiction
  | cons p g ih =>
    obtain ⟨hp, hrest⟩ := List.nodup_cons.mp hnodup
    rw [children_cons]
    by_cases hpc : p.1 = current
    · subst hpc
      have hothers : g.filter (·.1 ∉ p.1 :: done) = g.filter (·.1 ∉ done) := List.filter_congr fun q hq => by
        have hqp : q.1 ≠ p.1 := fun h => hp (h ▸ List.mem_map_of_mem hq)
        simp [hqp]
      rw [List.filter_cons_of_pos (by simpa using hnew), List.filter_cons_of_neg (by simp), targets_cons,
        List.count_append, if_pos rfl, hothers]
    · have hin := (List.mem_cons.mp hmem).resolve_left fun h => hpc h.symm
      rw [if_neg hpc]
      by_cases hpd : p.1 ∈ done
      · rw [List.filter_cons_of_neg (by simpa using hpd), List.filter_cons_of_neg (by simp [hpd]), ih hrest hin]
      · rw [List.filter_cons_of_pos (by simpa using hpd), List.filter_cons_of_pos (by simp [hpc, hpd]), targets_cons,
          targets_cons, List.count_append, List.count_append, ih hrest hin]
        omega

/-- Where the loop is: the vertices taken off the queue are settled, each degree counts the edges from
vertices still to be taken, and the vertices that no such edge enters are taken or wait. -/
structure Sorting (g : Adjacency V) (inDegree : V → ℤ) (queue done : List V) : Prop where
  nodup : (queue ++ done).Nodup
  keys : ∀ v ∈ queue ++ done, v ∈ g.keys
  degree : ∀ v, inDegree v = (targets (g.filter (·.1 ∉ done))).count v
  free : ∀ v ∈ g.keys, inDegree v = 0 ↔ v ∈ queue ++ done
  settled : Settled g.Edge done

/-- An edge from a vertex still to be taken is counted. -/
theorem Sorting.entered (hnodup : g.keys.Nodup) (h : Sorting g inDegree queue done) {u : V} (hu : u ∉ done)
    (hedge : g.Edge u v) : inDegree v ≠ 0 := by
  obtain ⟨p, hp, rfl, hv⟩ := (edge_iff hnodup).mp hedge
  rw [h.degree]
  have hcounted : v ∈ targets (g.filter (·.1 ∉ done)) :=
    List.mem_flatMap.mpr ⟨p, List.mem_filter.mpr ⟨hp, by simpa using hu⟩, hv⟩
  exact Int.natCast_ne_zero.mpr (List.count_pos_iff.mpr hcounted).ne'

/-- Taking the head of the queue keeps the loop where it is. -/
theorem Sorting.step (hnodup : g.keys.Nodup) (htargets : ∀ v ∈ g.targets, v ∈ g.keys) {current : V}
    (h : Sorting g inDegree (current :: queue) done) :
    Sorting g (release inDegree queue (g.children current)).1 (release inDegree queue (g.children current)).2
      (current :: done) := by
  have hcurrent : current ∈ g.keys := h.keys current List.mem_cons_self
  obtain ⟨hfresh, hrest⟩ := List.nodup_cons.mp h.nodup
  have hcount : ∀ v, inDegree v =
      (g.children current).count v + (targets (g.filter (·.1 ∉ current :: done))).count v := fun v => by
    rw [h.degree, count_targets_taken hnodup hcurrent fun hin => hfresh (List.mem_append_right _ hin)]
    push_cast
    rfl
  have hle : ∀ v, ((g.children current).count v : ℤ) ≤ inDegree v := fun v => by
    rw [hcount]
    omega
  have hzero : ∀ v ∈ current :: queue ++ done, inDegree v = 0 := fun v hv => (h.free v (h.keys v hv)).mpr hv
  have hjoins : ∀ v ∈ g.children current, v ∉ current :: queue ++ done := fun v hv hin => by
    have hpos := List.count_pos_iff.mpr hv
    have hv := hle v
    rw [hzero v hin] at hv
    omega
  refine ⟨List.nodup_append.mpr ⟨?_, ?_, ?_⟩, fun v hv => ?_, fun v => ?_, fun v hv => ?_, ?_⟩
  · exact release_nodup hle (List.nodup_append.mp hrest).1 fun v hv =>
      (hzero v (List.mem_cons_of_mem _ (List.mem_append_left _ hv))).le
  · exact List.nodup_cons.mpr ⟨fun hin => hfresh (List.mem_append_right _ hin), (List.nodup_append.mp hrest).2.1⟩
  · rintro v hv w hw rfl
    rcases (mem_release hle).mp hv with hv | ⟨hv, -⟩
    · rcases List.mem_cons.mp hw with hvc | hw
      · exact hfresh (hvc ▸ List.mem_append_left _ hv)
      · exact (List.nodup_append.mp hrest).2.2 v hv v hw rfl
    · refine hjoins v hv ?_
      rcases List.mem_cons.mp hw with hvc | hw
      · exact hvc ▸ List.mem_cons_self
      · exact List.mem_cons_of_mem _ (List.mem_append_right _ hw)
  · rcases List.mem_append.mp hv with hv | hv
    · rcases (mem_release hle).mp hv with hv | ⟨hv, -⟩
      · exact h.keys v (List.mem_cons_of_mem _ (List.mem_append_left _ hv))
      · exact htargets v (mem_targets_of_edge hv)
    · rcases List.mem_cons.mp hv with rfl | hv
      · exact hcurrent
      · exact h.keys v (List.mem_cons_of_mem _ (List.mem_append_right _ hv))
  · rw [release_inDegree, hcount]
    omega
  · have hfree : inDegree v = 0 ↔ v ∈ current :: queue ++ done := h.free v hv
    have hv := hle v
    rw [release_inDegree, List.mem_append, mem_release hle, List.mem_cons]
    rw [List.cons_append, List.mem_cons, List.mem_append] at hfree
    by_cases hin : v ∈ g.children current
    · have hpos := List.count_pos_iff.mpr hin
      have hnot : ¬(v = current ∨ v ∈ queue ∨ v ∈ done) := fun h => by
        rw [hfree.mpr h] at hv
        omega
      obtain ⟨hnc, hnq, hnd⟩ : v ≠ current ∧ v ∉ queue ∧ v ∉ done := by simpa only [not_or] using hnot
      simp only [hin, true_and, hnc, hnq, hnd, false_or, or_false]
      omega
    · rw [List.count_eq_zero.mpr hin, Int.natCast_zero, sub_zero, hfree]
      simp only [hin, false_and, or_false]
      exact or_left_comm
  · refine .cons (fun u hu => ?_) h.settled
    by_contra hnew
    exact h.entered hnodup hnew hu (hzero current List.mem_cons_self)

/-- The loop ends with the queue empty, having counted the vertices it took. -/
theorem Sorting.drain (hnodup : g.keys.Nodup) (htargets : ∀ v ∈ g.targets, v ∈ g.keys)
    (h : Sorting g inDegree queue done) (hvisited : done.length = visited) :
    ∃ inDegree' done', Sorting g inDegree' [] done' ∧ g.drain inDegree queue visited = done'.length := by
  induction inDegree, queue, visited using Adjacency.drain.induct g generalizing done with
  | case1 inDegree visited => exact ⟨inDegree, done, h, by rw [Adjacency.drain, hvisited]⟩
  | case2 inDegree current queue visited ih =>
    obtain ⟨inDegree', done', hdone, hcount⟩ := ih (h.step hnodup htargets) (congrArg Nat.succ hvisited)
    exact ⟨inDegree', done', hdone, by rw [Adjacency.drain, hcount]⟩

/-- Drained from its sources, a graph is counted whole exactly if it has no cycle. -/
theorem drain_eq_length_iff (hnodup : g.keys.Nodup) (htargets : ∀ v ∈ g.targets, v ∈ g.keys)
    (hdegree : ∀ v, inDegree v = g.targets.count v) :
    g.drain inDegree (g.keys.filter (inDegree · = 0)) 0 = g.keys.length ↔ g.Acyclic := by
  have hstart : Sorting g inDegree (g.keys.filter (inDegree · = 0)) [] := by
    refine ⟨by simpa using hnodup.filter _, fun v hv => ?_, by simpa using hdegree, fun v hv => by simp [hv], .nil⟩
    rw [List.append_nil] at hv
    exact (List.mem_filter.mp hv).1
  obtain ⟨inDegree', done, hend, hcount⟩ := hstart.drain hnodup htargets (List.length_nil)
  rw [hcount]
  have hsub : done ⊆ g.keys := hend.keys
  constructor
  · intro hlength
    have hall : g.keys ⊆ done := (List.subperm_of_subset hend.nodup hsub).perm_of_length_le hlength.ge |>.symm.subset
    exact acyclic_of_settled hend.settled hall
  · intro hacyclic
    suffices hall : g.keys ⊆ done from
      le_antisymm (List.subperm_of_subset hend.nodup hsub).length_le (List.subperm_of_subset hnodup hall).length_le
    -- a vertex that is left would have one left that no edge enters from what is left, and that one waits
    intro v hv
    by_contra hnew
    have hleft : g.keys.filter (· ∉ done) ≠ [] := List.ne_nil_of_mem (List.mem_filter.mpr ⟨hv, by simpa using hnew⟩)
    obtain ⟨m, hm, hsource⟩ := hacyclic.exists_source hleft
    obtain ⟨hm, hmd⟩ := List.mem_filter.mp hm
    refine of_decide_eq_true hmd ((hend.free m hm).mp ?_)
    rw [hend.degree, Int.natCast_eq_zero, List.count_eq_zero]
    intro hin
    obtain ⟨p, hp, hmp⟩ := List.mem_flatMap.mp hin
    obtain ⟨hp, hpd⟩ := List.mem_filter.mp hp
    exact hsource p.1 (List.mem_filter.mpr ⟨List.mem_map_of_mem hp, hpd⟩) ((edge_iff hnodup).mpr ⟨p, hp, rfl, hmp⟩)

end Adjacency
