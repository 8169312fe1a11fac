import Mathlib

/-!
# Graphs as adjacency lists

A directed graph is a list of vertices in an order, each with the targets of the edges that leave
it; an edge that is there twice is listed twice. A list of vertices is settled under a relation if
each of its members has all that goes before it further down the list. A member of a settled list
is on no cycle, and a finite graph without cycles has a source outside any settled part of it.
-/

/-- Vertices in an order, each with the targets of its edges. -/
abbrev Adjacency (V : Type*) := List (V × List V)

namespace Adjacency

open Relation

variable {V : Type*} {g : Adjacency V} {u v w : V}

/-- The vertices. -/
def keys (g : Adjacency V) : List V := g.map Prod.fst

/-- The targets of all edges. -/
def targets (g : Adjacency V) : List V := g.flatMap Prod.snd

theorem targets_cons (p : V × List V) : targets (p :: g) = p.2 ++ g.targets := List.flatMap_cons

section Settled

variable {r : V → V → Prop} {done : List V}

/-- Each member has all that goes before it, by `r`, further down the list. -/
inductive Settled (r : V → V → Prop) : List V → Prop
  | nil : Settled r []
  | cons {v : V} {done : List V} (hbefore : ∀ u, r u v → u ∈ done) (hdone : Settled r done) : Settled r (v :: done)

theorem Settled.acc (h : Settled r done) (hv : v ∈ done) : Acc r v := by
  induction h generalizing v with
  | nil => contradiction
  | cons hbefore _ ih =>
    rcases List.mem_cons.mp hv with rfl | hv
    · exact Acc.intro v fun u hu => ih (hbefore u hu)
    · exact ih hv

/-- A member is not reached from itself. -/
theorem Settled.irrefl (h : Settled r done) (hv : v ∈ done) : ¬ TransGen r v v := by
  have hacc := (h.acc hv).transGen
  induction hacc with
  | intro v _ ih => exact fun hcycle => ih v hcycle hv hcycle

end Settled

variable [DecidableEq V]

/-- The targets of the edges that leave a vertex, none if the graph does not have it. -/
def children (g : Adjacency V) (v : V) : List V := ((g.find? (·.1 = v)).map Prod.snd).getD []

/-- There is an edge from `v` to `w`. -/
def Edge (g : Adjacency V) (v w : V) : Prop := w ∈ g.children v

instance : DecidableRel g.Edge := fun v w => inferInstanceAs (Decidable (w ∈ g.children v))

/-- No vertex is reached from itself. -/
def Acyclic (g : Adjacency V) : Prop := ∀ v, ¬ TransGen g.Edge v v

/-- A path along edges that ends where it starts. -/
structure Closed (g : Adjacency V) (path : List V) : Prop where
  edges : path.IsChain g.Edge
  length : 2 ≤ path.length
  ends : path.head? = path.getLast?

/-- Adds an edge that leaves a vertex the graph has. -/
def addEdge (g : Adjacency V) (v w : V) : Adjacency V :=
  g.map fun p => if p.1 = v then (p.1, p.2 ++ [w]) else p

@[simp] theorem keys_addEdge (g : Adjacency V) (v w : V) : (g.addEdge v w).keys = g.keys := by
  rw [keys, keys, addEdge, List.map_map]
  exact List.map_congr_left fun p _ => by simp only [Function.comp_apply]; split <;> rfl

theorem children_of_notMem (h : v ∉ g.keys) : g.children v = [] := by
  have hnone : g.find? (·.1 = v) = none := List.find?_eq_none.mpr fun p hp hpv =>
    h (of_decide_eq_true hpv ▸ List.mem_map_of_mem hp)
  rw [children, hnone]
  rfl

theorem Edge.mem_keys (h : g.Edge v w) : v ∈ g.keys := by
  by_contra hv
  rw [Edge, children_of_notMem hv] at h
  contradiction

theorem children_cons (p : V × List V) : children (p :: g) v = if p.1 = v then p.2 else g.children v := by
  by_cases hp : p.1 = v <;> simp [children, hp]

/-- An edge is listed with the vertex it leaves. -/
theorem edge_iff (hnodup : g.keys.Nodup) : g.Edge v w ↔ ∃ p ∈ g, p.1 = v ∧ w ∈ p.2 := by
  induction g with
  | nil => simp [Edge, children]
  | cons p g ih =>
    obtain ⟨hp, hrest⟩ := List.nodup_cons.mp hnodup
    rw [Edge, children_cons]
    by_cases hpv : p.1 = v
    · subst hpv
      have hothers : ¬∃ q ∈ g, q.1 = p.1 ∧ w ∈ q.2 := fun ⟨q, hq, hqp, _⟩ => hp (hqp ▸ List.mem_map_of_mem hq)
      simp [hothers]
    · rw [if_neg hpv, ← Edge, ih hrest]
      simp [hpv]

/-- An edge of a vertex that the graph does not have is not added. -/
theorem addEdge_of_notMem (h : v ∉ g.keys) : g.addEdge v w = g := by
  have hsame : ∀ p ∈ g, (if p.1 = v then (p.1, p.2 ++ [w]) else p) = p := fun p hp =>
    if_neg fun hpv : p.1 = v => h (hpv ▸ List.mem_map_of_mem hp)
  rw [addEdge, List.map_congr_left hsame, List.map_id']

theorem addEdge_cons (p : V × List V) :
    addEdge (p :: g) v w = (if p.1 = v then (p.1, p.2 ++ [w]) else p) :: g.addEdge v w := rfl

/-- An added edge is there, with those that were. -/
theorem children_addEdge (hnodup : g.keys.Nodup) (hv : v ∈ g.keys) (x : V) :
    (g.addEdge v w).children x = if x = v then g.children x ++ [w] else g.children x := by
  induction g with
  | nil => contradiction
  | cons p g ih =>
    obtain ⟨hp, hrest⟩ := List.nodup_cons.mp hnodup
    rw [addEdge_cons, children_cons, children_cons]
    by_cases hpv : p.1 = v
    · subst hpv
      rw [addEdge_of_notMem hp]
      by_cases hx : p.1 = x
      · simp [hx]
      · simp [hx, Ne.symm hx]
    · have hv := (List.mem_cons.mp hv).resolve_left fun h => hpv h.symm
      by_cases hx : p.1 = x
      · subst hx
        simp [hpv]
      · simp [hpv, hx, ih hrest hv]

theorem edge_addEdge (hnodup : g.keys.Nodup) (hv : v ∈ g.keys) {x y : V} :
    (g.addEdge v w).Edge x y ↔ g.Edge x y ∨ x = v ∧ y = w := by
  rw [Edge, Edge, children_addEdge hnodup hv]
  by_cases hx : x = v <;> simp [hx]

/-- An added edge is one more target. -/
theorem count_targets_addEdge (hnodup : g.keys.Nodup) (hv : v ∈ g.keys) (x : V) :
    (g.addEdge v w).targets.count x = g.targets.count x + if x = w then 1 else 0 := by
  induction g with
  | nil => contradiction
  | cons p g ih =>
    obtain ⟨hp, hrest⟩ := List.nodup_cons.mp hnodup
    rw [addEdge_cons, targets_cons, targets_cons, List.count_append, List.count_append]
    by_cases hpv : p.1 = v
    · subst hpv
      rw [if_pos rfl, addEdge_of_notMem hp, List.count_append, List.count_singleton]
      by_cases hx : x = w
      · simp [hx]
        omega
      · simp [hx, Ne.symm hx]
    · rw [if_neg hpv, ih hrest ((List.mem_cons.mp hv).resolve_left fun h => hpv h.symm)]
      omega

/-- Adds edges one after the other. -/
def addEdges (g : Adjacency V) (edges : List (V × V)) : Adjacency V := edges.foldl (fun g e => g.addEdge e.1 e.2) g

@[simp] theorem keys_addEdges (g : Adjacency V) (edges : List (V × V)) : (g.addEdges edges).keys = g.keys := by
  induction edges generalizing g with
  | nil => rfl
  | cons e edges ih => exact (ih _).trans (keys_addEdge g e.1 e.2)

theorem edge_addEdges {edges : List (V × V)} (hnodup : g.keys.Nodup) (hmem : ∀ e ∈ edges, e.1 ∈ g.keys) :
    (g.addEdges edges).Edge v w ↔ g.Edge v w ∨ (v, w) ∈ edges := by
  induction edges generalizing g with
  | nil => simp [addEdges]
  | cons e edges ih =>
    have hstep : (g.addEdges (e :: edges)).Edge v w ↔ (g.addEdge e.1 e.2).Edge v w ∨ (v, w) ∈ edges :=
      ih (by rwa [keys_addEdge]) fun x hx => by
        rw [keys_addEdge]
        exact hmem x (List.mem_cons_of_mem _ hx)
    rw [hstep, edge_addEdge hnodup (hmem e List.mem_cons_self), List.mem_cons, Prod.ext_iff, or_assoc]

theorem count_targets_addEdges {edges : List (V × V)} (hnodup : g.keys.Nodup) (hmem : ∀ e ∈ edges, e.1 ∈ g.keys)
    (x : V) : (g.addEdges edges).targets.count x = g.targets.count x + (edges.map Prod.snd).count x := by
  induction edges generalizing g with
  | nil => rfl
  | cons e edges ih =>
    have hstep : (g.addEdges (e :: edges)).targets.count x =
        (g.addEdge e.1 e.2).targets.count x + (edges.map Prod.snd).count x :=
      ih (by rwa [keys_addEdge]) fun y hy => by
        rw [keys_addEdge]
        exact hmem y (List.mem_cons_of_mem _ hy)
    rw [hstep, count_targets_addEdge hnodup (hmem e List.mem_cons_self), List.map_cons, List.count_cons]
    by_cases hx : e.2 = x
    · simp [hx]
      omega
    · simp [hx, Ne.symm hx]

/-- A graph whose vertices are all settled, by its edges, has no cycle. -/
theorem acyclic_of_settled {done : List V} (h : Settled g.Edge done) (hall : ∀ v ∈ g.keys, v ∈ done) : g.Acyclic := by
  intro v hcycle
  obtain ⟨w, hvw, -⟩ := TransGen.head'_iff.mp hcycle
  exact h.irrefl (hall v hvw.mem_keys) hcycle

/-- So has one whose vertices are settled against its edges. -/
theorem acyclic_of_settled_swap {done : List V} (h : Settled (Function.swap g.Edge) done) (hall : ∀ v ∈ g.keys, v ∈ done) :
    g.Acyclic := by
  intro v hcycle
  obtain ⟨w, hvw, -⟩ := TransGen.head'_iff.mp hcycle
  exact h.irrefl (hall v hvw.mem_keys) (transGen_swap.mpr hcycle)

/-- In a graph without cycles, some vertex of those that are left has no edge from another that is. -/
theorem Acyclic.exists_source (h : g.Acyclic) {left : List V} (hleft : left ≠ []) :
    ∃ v ∈ left, ∀ u ∈ left, ¬ g.Edge u v := by
  have : IsStrictOrder V (TransGen g.Edge) := { irrefl := h, trans := fun _ _ _ => TransGen.trans }
  obtain ⟨v, hv⟩ := List.exists_mem_of_ne_nil _ hleft
  have hwf : Set.WellFoundedOn {v | v ∈ left} (TransGen g.Edge) := left.finite_toSet.wellFoundedOn
  obtain ⟨⟨m, hm⟩, -, hleast⟩ := hwf.has_min Set.univ ⟨⟨v, hv⟩, trivial⟩
  exact ⟨m, hm, fun u hu hedge => hleast ⟨u, hu⟩ trivial (.single hedge)⟩

/-- A closed path shows that the graph is not acyclic. -/
theorem Closed.not_acyclic {path : List V} (h : g.Closed path) : ¬ g.Acyclic := by
  intro hacyclic
  match path, h with
  | [], h => exact absurd h.length (by simp)
  | [_], h => exact absurd h.length (by simp)
  | v :: w :: rest, h =>
    have hlast := List.getLast?_eq_some_getLast (l := w :: rest) (List.cons_ne_nil _ _)
    have hends := h.ends
    rw [List.head?_cons, List.getLast?_cons_cons, hlast] at hends
    have hreach : TransGen g.Edge v ((w :: rest).getLast (List.cons_ne_nil _ _)) :=
      TransGen.head' (List.isChain_cons_cons.mp h.edges).1
        (List.relationReflTransGen_of_exists_isChain_cons rest (List.isChain_cons_cons.mp h.edges).2 rfl)
    exact hacyclic v (Option.some.inj hends ▸ hreach)

end Adjacency
