import PgBoss.Adjacency.Graph

/-!
# Depth first search for a cycle

A visit follows the edges that leave a vertex. A vertex the search comes back to while it is still
on the path closes a cycle, which ends the search; one whose edges have all been followed is
visited, and is not followed again.
-/

namespace Adjacency

variable {V : Type*} [DecidableEq V] {g : Adjacency V} {path visited : List V} {ref : V}

mutual

/-- Visits a vertex that the last of `path` has an edge to: the vertices visited by then, or a cycle. -/
def visit (g : Adjacency V) (path visited : List V) (ref : V) : Except (List V) (List V) :=
  if ref ∈ path then .error (path.drop (path.idxOf ref) ++ [ref])
  else if ref ∈ visited then .ok visited
  else if ref ∈ g.keys then (visitAll g (path ++ [ref]) visited (g.children ref)).map (ref :: ·)
  else .ok (ref :: visited)
termination_by ((g.keys.toFinset \ path.toFinset).card, 0)
decreasing_by
  refine Prod.Lex.left _ _ (Finset.card_lt_card ((Finset.ssubset_iff_of_subset ?_).mpr ⟨ref, ?_, ?_⟩))
  · exact Finset.sdiff_subset_sdiff subset_rfl fun v hv => by simp_all
  · simp_all
  · simp

/-- Visits vertices one after the other. -/
def visitAll (g : Adjacency V) (path visited : List V) : List V → Except (List V) (List V)
  | [] => .ok visited
  | ref :: rest =>
    match visit g path visited ref with
    | .error cycle => .error cycle
    | .ok visited => visitAll g path visited rest
termination_by refs => ((g.keys.toFinset \ path.toFinset).card, refs.length + 1)

end

/-- The first cycle that visits of all the vertices come on, or null. -/
def findCycle (g : Adjacency V) : Option (List V) :=
  match g.visitAll [] [] g.keys with
  | .error cycle => some cycle
  | .ok _ => none

/-- What a visit gives: a closed path, or more visited vertices, settled against the edges, with all of `refs`. -/
def Explored (g : Adjacency V) (visited refs : List V) : Except (List V) (List V) → Prop
  | .error cycle => g.Closed cycle
  | .ok visited' => visited ⊆ visited' ∧ refs ⊆ visited' ∧ Settled (Function.swap g.Edge) visited'

/-- The part of a path from a vertex on, closed by an edge back to it. -/
theorem closed_of_mem (hpath : path.IsChain g.Edge) (hlast : ∀ last ∈ path.getLast?, g.Edge last ref)
    (hin : ref ∈ path) : g.Closed (path.drop (path.idxOf ref) ++ [ref]) := by
  have hlt : path.idxOf ref < path.length := List.idxOf_lt_length_of_mem hin
  have hdrop : path.drop (path.idxOf ref) = ref :: path.drop (path.idxOf ref + 1) := by
    rw [List.drop_eq_getElem_cons hlt, List.getElem_idxOf hlt]
  refine ⟨List.isChain_append.mpr ⟨hpath.drop _, .singleton _, ?_⟩, ?_, ?_⟩
  · intro last hin v hv
    obtain rfl : ref = v := by simpa using hv
    refine hlast last ?_
    rw [List.getLast?_drop, if_neg (by omega)] at hin
    exact hin
  · rw [hdrop]
    simp
  · rw [List.getLast?_concat, hdrop]
    rfl

/-- A vertex goes after all its children. -/
theorem Explored.map_cons {children : List V} (hchildren : ∀ v, g.Edge ref v → v ∈ children)
    {result : Except (List V) (List V)} (h : g.Explored visited children result) :
    g.Explored visited [ref] (result.map (ref :: ·)) := by
  cases result with
  | error cycle => exact h
  | ok visited' =>
    obtain ⟨hvisited, hall, hsettled⟩ := h
    exact ⟨List.subset_cons_of_subset _ hvisited, by simp, .cons (fun v hv => hall (hchildren v hv)) hsettled⟩

/-- What a visit from the end of a path gives, and what visits of a list give. -/
theorem explored (g : Adjacency V) :
    (∀ path visited ref, path.IsChain g.Edge → (∀ last ∈ path.getLast?, g.Edge last ref) →
      Settled (Function.swap g.Edge) visited → g.Explored visited [ref] (g.visit path visited ref)) ∧
    ∀ path visited refs, path.IsChain g.Edge → (∀ ref ∈ refs, ∀ last ∈ path.getLast?, g.Edge last ref) →
      Settled (Function.swap g.Edge) visited → g.Explored visited refs (g.visitAll path visited refs) := by
  refine visit.mutual_induct g _ _ ?onPath ?visited ?inside ?absent ?done ?cycle ?further
  case onPath =>
    intro path visited ref hin hpath hlast _
    rw [visit, if_pos hin]
    exact closed_of_mem hpath hlast hin
  case visited =>
    intro path visited ref hout hin _ _ hsettled
    rw [visit, if_neg hout, if_pos hin]
    exact ⟨List.Subset.refl _, by simpa using hin, hsettled⟩
  case inside =>
    intro path visited ref hout hnew hkey ih hpath hlast hsettled
    rw [visit, if_neg hout, if_neg hnew, if_pos hkey]
    refine (ih ?_ (fun v hv last hin => ?_) hsettled).map_cons fun v hv => hv
    · refine List.isChain_append.mpr ⟨hpath, .singleton _, fun last hin v hv => ?_⟩
      obtain rfl : ref = v := by simpa using hv
      exact hlast last hin
    · obtain rfl : ref = last := by simpa using hin
      exact hv
  case absent =>
    intro path visited ref hout hnew hkey hpath hlast hsettled
    rw [visit, if_neg hout, if_neg hnew, if_neg hkey]
    exact ⟨List.subset_cons_self _ _, by simp, .cons (fun v hv => absurd (Edge.mem_keys hv) hkey) hsettled⟩
  case done =>
    intro path visited _ _ hsettled
    rw [visitAll]
    exact ⟨List.Subset.refl _, List.nil_subset _, hsettled⟩
  case cycle =>
    intro path visited ref rest cycle hvisit ih hpath hlast hsettled
    have hclosed := ih hpath (hlast ref List.mem_cons_self) hsettled
    rw [visitAll, hvisit]
    rwa [hvisit] at hclosed
  case further =>
    intro path visited ref rest visited' hvisit ih ihrest hpath hlast hsettled
    have hfirst := ih hpath (hlast ref List.mem_cons_self) hsettled
    rw [hvisit] at hfirst
    obtain ⟨hvisited, href, hsettled'⟩ := hfirst
    have hall := ihrest hpath (fun v hv => hlast v (List.mem_cons_of_mem _ hv)) hsettled'
    rw [visitAll, hvisit]
    simp only
    cases hrest : g.visitAll path visited' rest with
    | error cycle => rwa [hrest] at hall
    | ok visited'' =>
      rw [hrest] at hall
      obtain ⟨hmore, hrefs, hdone⟩ := hall
      exact ⟨List.Subset.trans hvisited hmore, List.cons_subset.mpr ⟨hmore (href (List.mem_singleton_self ref)), hrefs⟩, hdone⟩

theorem findCycle_explored (g : Adjacency V) : g.Explored [] g.keys (g.visitAll [] [] g.keys) :=
  (explored g).2 [] [] g.keys .nil (by simp) .nil

/-- What the search finds is a cycle. -/
theorem closed_of_findCycle {cycle : List V} (h : g.findCycle = some cycle) : g.Closed cycle := by
  have hexplored := findCycle_explored g
  rw [findCycle] at h
  cases hvisit : g.visitAll [] [] g.keys with
  | ok visited => simp [hvisit] at h
  | error found =>
    rw [hvisit] at h hexplored
    exact Option.some.inj h ▸ hexplored

/-- It finds none exactly if there is none. -/
theorem findCycle_eq_none_iff : g.findCycle = none ↔ g.Acyclic := by
  have hexplored := findCycle_explored g
  rw [findCycle]
  cases hvisit : g.visitAll [] [] g.keys with
  | error cycle =>
    rw [hvisit] at hexplored
    simpa using hexplored.not_acyclic
  | ok visited =>
    rw [hvisit] at hexplored
    simpa using acyclic_of_settled_swap hexplored.2.2 fun v hv => hexplored.2.1 hv

end Adjacency
