import PgBoss.Adjacency.TopologicalSort
import PgBoss.Adjacency.DepthFirst
import PgBoss.Manager.Flow

/-!
# Validating flows

`validateFlowJobs` checks the refs and names of a flow, then each `dependsOn`, then that the
dependencies have no cycle: a topological sort decides, and where it leaves jobs over a depth
first search finds the cycle that the error names.
-/

namespace PgBoss

open Relation

/-- What `validateFlowJobs` throws: an `AssertionError`, or a `TypeError` where it joins a cycle that is null. -/
inductive FlowError
  | assertion (message : String)
  | typeError
  deriving DecidableEq, Repr

/-- `assert`. -/
def assertFlow (condition : Prop) [Decidable condition] (message : String) : Except FlowError Unit :=
  if condition then .ok () else .error (.assertion message)

/-- The characters an object name may have. -/
def objectNameChar (c : Char) : Bool := c.isAlphanum || c == '_' || c == '.' || c == '-' || c == '/'

/-- What `assertObjectName` lets pass. -/
def IsObjectName (value : String) : Prop := value ≠ "" ∧ value.toList.all objectNameChar

instance (value : String) : Decidable (IsObjectName value) :=
  inferInstanceAs (Decidable (_ ∧ _))

/-- `assertObjectName`. -/
def assertObjectName (value name : String) : Except FlowError Unit :=
  assertFlow (IsObjectName value)
    (name ++ " can only contain alphanumeric characters, underscores, hyphens, periods, or forward slashes")

/-- The loop over the refs and names: the set of refs. -/
def validateRefs (refs : List String) : List FlowJob → Except FlowError (List String)
  | [] => .ok refs
  | job :: rest => do
    assertFlow (job.ref ≠ "") "each flow job must have a non-empty ref"
    assertFlow (job.ref ∉ refs) ("duplicate ref: \"" ++ job.ref ++ "\"")
    assertFlow (job.name ≠ "") "each flow job must have a non-empty name"
    assertObjectName job.name "Name"
    validateRefs (job.ref :: refs) rest

/-- The loop over the `dependsOn` of a job. -/
def validateDependsOn (refs : List String) (job : FlowJob) : List String → Except FlowError Unit
  | [] => .ok ()
  | dep :: rest => do
    assertFlow (dep ≠ "") "dependsOn entries must be non-empty strings"
    assertFlow (dep ≠ job.ref) ("job \"" ++ job.ref ++ "\" cannot depend on itself")
    assertFlow (dep ∈ refs) ("dependsOn ref \"" ++ dep ++ "\" not found in flow")
    validateDependsOn refs job rest

/-- The loop over the jobs' `dependsOn`. -/
def validateDependencies (refs : List String) : List FlowJob → Except FlowError Unit
  | [] => .ok ()
  | job :: rest => do
    validateDependsOn refs job job.dependsOn
    validateDependencies refs rest

/-- `edges`: the jobs that depend on each ref. -/
def flowEdges (jobs : List FlowJob) : Adjacency String :=
  jobs.foldl (fun edges job => job.dependsOn.foldl (fun edges dep => edges.addEdge dep job.ref) edges)
    (jobs.map fun job => (job.ref, []))

/-- `inDegree`. -/
def flowInDegree (jobs : List FlowJob) : String → ℤ :=
  jobs.foldl (fun inDegree job => job.dependsOn.foldl
    (fun inDegree _ => Function.update inDegree job.ref (inDegree job.ref + 1)) inDegree) fun _ => 0

/-- `visited` after the topological sort. -/
def flowVisited (jobs : List FlowJob) : ℕ :=
  (flowEdges jobs).drain (flowInDegree jobs) ((flowEdges jobs).keys.filter (flowInDegree jobs · = 0)) 0

/-- `findDependencyCycle`. -/
def findDependencyCycle (edges : Adjacency String) : Option (List String) := edges.findCycle

/-- The checks before the topological sort. -/
def flowChecks (jobs : List FlowJob) : Except FlowError Unit := do
  assertFlow (2 ≤ jobs.length) "flow requires at least 2 jobs"
  let refs ← validateRefs [] jobs
  assertFlow (∃ job ∈ jobs, 0 < job.dependsOn.length) "flow requires at least one job with dependsOn"
  validateDependencies refs jobs

/-- The topological sort, and the error where it leaves jobs over. -/
def checkFlowCycle (jobs : List FlowJob) : Except FlowError Unit :=
  if flowVisited jobs ≠ jobs.length then
    match findDependencyCycle (flowEdges jobs) with
    | none => .error .typeError
    | some cycle => .error (.assertion ("flow contains a dependency cycle: " ++ " -> ".intercalate cycle))
  else .ok ()

/-- `validateFlowJobs`. -/
def validateFlowJobs (jobs : List FlowJob) : Except FlowError Unit := do
  flowChecks jobs
  checkFlowCycle jobs

section Abstract

/-- A dependency edge: a job named `child` depends on `parent`. -/
def Feeds (jobs : List FlowJob) (parent child : String) : Prop :=
  ∃ job ∈ jobs, job.ref = child ∧ parent ∈ job.dependsOn

/-- A flow that can be run: distinct jobs under legal names, dependencies on each other, and none on itself,
however far. -/
structure WellFormedFlow (jobs : List FlowJob) : Prop where
  two : 2 ≤ jobs.length
  ref : ∀ job ∈ jobs, job.ref ≠ ""
  distinct : (jobs.map FlowJob.ref).Nodup
  name : ∀ job ∈ jobs, IsObjectName job.name
  depends : ∃ job ∈ jobs, ∃ dep, dep ∈ job.dependsOn
  other : ∀ job ∈ jobs, ∀ dep ∈ job.dependsOn, ∃ parent ∈ jobs, parent.ref = dep ∧ parent.ref ≠ job.ref
  acyclic : ∀ ref, ¬ TransGen (Feeds jobs) ref ref

/-- A closed path of dependency edges. -/
structure FlowCycle (jobs : List FlowJob) (path : List String) : Prop where
  edges : path.IsChain (Feeds jobs)
  length : 2 ≤ path.length
  ends : path.head? = path.getLast?

end Abstract

variable {jobs : List FlowJob} {job : FlowJob} {refs out : List String} {parent child : String}

section Checks

theorem assertFlow_bind {α : Type} {condition : Prop} [Decidable condition] {message : String}
    {next : Unit → Except FlowError α} {result : α} :
    (assertFlow condition message >>= next) = .ok result ↔ condition ∧ next () = .ok result := by
  by_cases h : condition
  · rw [assertFlow, if_pos h]
    exact (and_iff_right h).symm
  · rw [assertFlow, if_neg h]
    simp [bind, Except.bind, h]

/-- The loop over the refs passes distinct new ones, under legal names, and gathers them. -/
theorem validateRefs_ok : validateRefs refs jobs = .ok out ↔
    ((∀ job ∈ jobs, job.ref ≠ "" ∧ job.ref ∉ refs ∧ IsObjectName job.name) ∧ (jobs.map FlowJob.ref).Nodup) ∧
      out = (jobs.map FlowJob.ref).reverse ++ refs := by
  induction jobs generalizing refs with
  | nil =>
    simp only [validateRefs, Except.ok.injEq, List.not_mem_nil, false_implies, implies_true, List.map_nil,
      List.nodup_nil, and_self, true_and, List.reverse_nil, List.nil_append]
    exact eq_comm
  | cons job rest ih =>
    have hfresh : (∀ x ∈ rest, x.ref ∉ job.ref :: refs) ↔
        job.ref ∉ rest.map FlowJob.ref ∧ ∀ x ∈ rest, x.ref ∉ refs := by
      simp only [List.mem_cons, not_or, List.mem_map, not_exists, not_and]
      exact ⟨fun h => ⟨fun x hx => (h x hx).1, fun x hx => (h x hx).2⟩, fun h x hx => ⟨h.1 x hx, h.2 x hx⟩⟩
    rw [validateRefs, assertFlow_bind, assertFlow_bind, assertFlow_bind, assertObjectName, assertFlow_bind, ih,
      List.map_cons, List.nodup_cons, List.forall_mem_cons, List.reverse_cons, List.append_assoc, List.singleton_append]
    simp only [forall_and, hfresh]
    constructor
    · rintro ⟨href, hnew, -, hname, ⟨⟨hrefs, ⟨hnotin, hnews⟩, hnames⟩, hnodup⟩, hout⟩
      exact ⟨⟨⟨⟨href, hnew, hname⟩, hrefs, hnews, hnames⟩, hnotin, hnodup⟩, hout⟩
    · rintro ⟨⟨⟨⟨href, hnew, hname⟩, hrefs, hnews, hnames⟩, hnotin, hnodup⟩, hout⟩
      exact ⟨href, hnew, hname.1, hname, ⟨⟨hrefs, ⟨hnotin, hnews⟩, hnames⟩, hnodup⟩, hout⟩

theorem validateDependsOn_ok {dependsOn : List String} : validateDependsOn refs job dependsOn = .ok () ↔
    ∀ dep ∈ dependsOn, dep ≠ "" ∧ dep ≠ job.ref ∧ dep ∈ refs := by
  induction dependsOn with
  | nil => simp [validateDependsOn]
  | cons dep rest ih =>
    rw [validateDependsOn, assertFlow_bind, assertFlow_bind, assertFlow_bind, ih, List.forall_mem_cons, and_assoc,
      and_assoc]

theorem validateDependencies_ok : validateDependencies refs jobs = .ok () ↔
    ∀ job ∈ jobs, ∀ dep ∈ job.dependsOn, dep ≠ "" ∧ dep ≠ job.ref ∧ dep ∈ refs := by
  induction jobs with
  | nil => simp [validateDependencies]
  | cons job rest ih =>
    rw [validateDependencies, List.forall_mem_cons, ← ih, ← validateDependsOn_ok]
    cases validateDependsOn refs job job.dependsOn with
    | error e => simp [bind, Except.bind]
    | ok u => simp [bind, Except.bind]

/-- The checks before the sort pass flows that are well formed but for cycles. -/
theorem flowChecks_ok : flowChecks jobs = .ok () ↔
    2 ≤ jobs.length ∧ (∀ job ∈ jobs, job.ref ≠ "" ∧ IsObjectName job.name) ∧ (jobs.map FlowJob.ref).Nodup ∧
      (∃ job ∈ jobs, ∃ dep, dep ∈ job.dependsOn) ∧
        ∀ job ∈ jobs, ∀ dep ∈ job.dependsOn, ∃ parent ∈ jobs, parent.ref = dep ∧ parent.ref ≠ job.ref := by
  have hdepends : (∃ job ∈ jobs, 0 < job.dependsOn.length) ↔ ∃ job ∈ jobs, ∃ dep, dep ∈ job.dependsOn :=
    exists_congr fun job => and_congr_right fun _ => List.length_pos_iff_exists_mem
  rw [flowChecks, assertFlow_bind]
  refine and_congr_right fun _ => ?_
  cases hrefs : validateRefs [] jobs with
  | error e =>
    have hnot : ¬((∀ job ∈ jobs, job.ref ≠ "" ∧ IsObjectName job.name) ∧ (jobs.map FlowJob.ref).Nodup) := by
      rintro ⟨hall, hnodup⟩
      have hok := validateRefs_ok.mpr ⟨⟨fun job hjob => ⟨(hall job hjob).1, List.not_mem_nil, (hall job hjob).2⟩, hnodup⟩, rfl⟩
      rw [hrefs] at hok
      contradiction
    simp only [bind, Except.bind, reduceCtorEq, false_iff]
    exact fun h => hnot ⟨h.1, h.2.1⟩
  | ok refs =>
    obtain ⟨⟨hall, hnodup⟩, rfl⟩ := validateRefs_ok.mp hrefs
    have hother : (∀ job ∈ jobs, ∀ dep ∈ job.dependsOn,
        dep ≠ "" ∧ dep ≠ job.ref ∧ dep ∈ (jobs.map FlowJob.ref).reverse ++ []) ↔
          ∀ job ∈ jobs, ∀ dep ∈ job.dependsOn, ∃ parent ∈ jobs, parent.ref = dep ∧ parent.ref ≠ job.ref := by
      refine forall₂_congr fun job _ => forall₂_congr fun dep _ => ?_
      rw [List.append_nil, List.mem_reverse, List.mem_map]
      constructor
      · rintro ⟨-, hne, parent, hparent, rfl⟩
        exact ⟨parent, hparent, rfl, hne⟩
      · rintro ⟨parent, hparent, rfl, hne⟩
        exact ⟨(hall parent hparent).1, hne, parent, hparent, rfl⟩
    change (assertFlow (∃ job ∈ jobs, 0 < job.dependsOn.length) _ >>= _) = _ ↔ _
    rw [assertFlow_bind, validateDependencies_ok, hdepends, hother]
    exact ⟨fun h => ⟨fun job hjob => ⟨(hall job hjob).1, (hall job hjob).2.2⟩, hnodup, h⟩, fun h => h.2.2⟩

end Checks

section Edges

/-- The edges of a flow in the order they are added. -/
def flowPairs (jobs : List FlowJob) : List (String × String) :=
  jobs.flatMap fun job => job.dependsOn.map fun dep => (dep, job.ref)

theorem mem_flowPairs : (parent, child) ∈ flowPairs jobs ↔ Feeds jobs parent child := by
  simp only [flowPairs, List.mem_flatMap, List.mem_map, Prod.mk.injEq, Feeds]
  exact exists_congr fun job => and_congr_right fun _ =>
    ⟨fun ⟨_, hdep, hp, hc⟩ => ⟨hc, hp ▸ hdep⟩, fun ⟨hc, hdep⟩ => ⟨parent, hdep, rfl, hc⟩⟩

theorem flowEdges_eq (jobs : List FlowJob) :
    flowEdges jobs = Adjacency.addEdges (jobs.map fun job => (job.ref, [])) (flowPairs jobs) := by
  rw [flowEdges, Adjacency.addEdges, flowPairs, List.foldl_flatMap]
  simp only [List.foldl_map]

@[simp] theorem keys_flowEdges (jobs : List FlowJob) : (flowEdges jobs).keys = jobs.map FlowJob.ref := by
  rw [flowEdges_eq, Adjacency.keys_addEdges, Adjacency.keys, List.map_map]
  rfl

theorem flowInDegree_eq (jobs : List FlowJob) (ref : String) :
    flowInDegree jobs ref = ((flowPairs jobs).map Prod.snd).count ref := by
  have hfold : flowInDegree jobs = (flowPairs jobs).foldl
      (fun inDegree e => Function.update inDegree e.2 (inDegree e.2 + 1)) fun _ => 0 := by
    rw [flowInDegree, flowPairs, List.foldl_flatMap]
    simp only [List.foldl_map]
  have hcount : ∀ (edges : List (String × String)) (inDegree : String → ℤ),
      edges.foldl (fun inDegree e => Function.update inDegree e.2 (inDegree e.2 + 1)) inDegree ref =
        inDegree ref + (edges.map Prod.snd).count ref := by
    intro edges
    induction edges with
    | nil => simp
    | cons e edges ih =>
      intro inDegree
      rw [List.foldl_cons, ih, List.map_cons, List.count_cons]
      by_cases he : ref = e.2
      · subst he
        simp
        omega
      · simp [he, Ne.symm he]
  rw [hfold, hcount, zero_add]

/-- The refs and the dependencies of jobs that the checks pass make a graph. -/
structure FlowGraph (jobs : List FlowJob) : Prop where
  distinct : (jobs.map FlowJob.ref).Nodup
  parents : ∀ {parent child}, Feeds jobs parent child → parent ∈ jobs.map FlowJob.ref

theorem flowGraph_of_checks (h : flowChecks jobs = .ok ()) : FlowGraph jobs := by
  obtain ⟨-, -, hdistinct, -, hother⟩ := flowChecks_ok.mp h
  refine ⟨hdistinct, ?_⟩
  rintro parent child ⟨job, hjob, -, hdep⟩
  obtain ⟨p, hp, rfl, -⟩ := hother job hjob parent hdep
  exact List.mem_map_of_mem hp

namespace FlowGraph

variable (h : FlowGraph jobs)

include h

theorem pairs : ∀ e ∈ flowPairs jobs, e.1 ∈ Adjacency.keys (jobs.map fun job => (job.ref, ([] : List String))) := by
  rintro ⟨parent, child⟩ he
  rw [Adjacency.keys, List.map_map]
  exact h.parents (mem_flowPairs.mp he)

theorem start_nodup : (Adjacency.keys (jobs.map fun job => (job.ref, ([] : List String)))).Nodup := by
  rw [Adjacency.keys, List.map_map]
  exact h.distinct

theorem edge_iff : (flowEdges jobs).Edge parent child ↔ Feeds jobs parent child := by
  rw [flowEdges_eq, Adjacency.edge_addEdges h.start_nodup h.pairs, mem_flowPairs, Adjacency.edge_iff h.start_nodup]
  simp

theorem count_targets (ref : String) : (flowEdges jobs).targets.count ref = ((flowPairs jobs).map Prod.snd).count ref := by
  have hnone : Adjacency.targets (jobs.map fun job => (job.ref, ([] : List String))) = [] := by
    simp [Adjacency.targets]
  rw [flowEdges_eq, Adjacency.count_targets_addEdges h.start_nodup h.pairs, hnone, List.count_nil, zero_add]

theorem targets_mem : ∀ ref ∈ (flowEdges jobs).targets, ref ∈ (flowEdges jobs).keys := by
  intro ref href
  have hcount := List.count_pos_iff.mpr href
  rw [h.count_targets, List.count_pos_iff] at hcount
  obtain ⟨⟨parent, child⟩, he, rfl⟩ := List.mem_map.mp hcount
  obtain ⟨job, hjob, hchild, -⟩ := mem_flowPairs.mp he
  rw [keys_flowEdges]
  exact List.mem_map.mpr ⟨job, hjob, hchild⟩

theorem acyclic_iff : (flowEdges jobs).Acyclic ↔ ∀ ref, ¬ TransGen (Feeds jobs) ref ref := by
  have hsame : (flowEdges jobs).Edge = Feeds jobs := by
    funext parent child
    exact propext h.edge_iff
  rw [Adjacency.Acyclic, hsame]

/-- The sort takes every job exactly if there is no cycle. -/
theorem visited_eq_iff : flowVisited jobs = jobs.length ↔ ∀ ref, ¬ TransGen (Feeds jobs) ref ref := by
  have hkeys : (flowEdges jobs).keys.length = jobs.length := by rw [keys_flowEdges, List.length_map]
  rw [← h.acyclic_iff, ← hkeys, flowVisited]
  refine Adjacency.drain_eq_length_iff ?_ h.targets_mem fun ref => ?_
  · rw [keys_flowEdges]
    exact h.distinct
  · rw [flowInDegree_eq, h.count_targets]

end FlowGraph

end Edges

theorem wellFormedFlow_iff :
    WellFormedFlow jobs ↔ flowChecks jobs = .ok () ∧ ∀ ref, ¬ TransGen (Feeds jobs) ref ref := by
  rw [flowChecks_ok]
  constructor
  · exact fun h => ⟨⟨h.two, fun job hjob => ⟨h.ref job hjob, h.name job hjob⟩, h.distinct, h.depends, h.other⟩, h.acyclic⟩
  · rintro ⟨⟨htwo, hall, hdistinct, hdepends, hother⟩, hacyclic⟩
    exact ⟨htwo, fun job hjob => (hall job hjob).1, hdistinct, fun job hjob => (hall job hjob).2, hdepends, hother, hacyclic⟩

theorem validateFlowJobs_ok : validateFlowJobs jobs = .ok () ↔ WellFormedFlow jobs := by
  rw [wellFormedFlow_iff, validateFlowJobs]
  cases hchecks : flowChecks jobs with
  | error e => simp [bind, Except.bind]
  | ok u =>
    have hgraph := flowGraph_of_checks hchecks
    rw [← hgraph.visited_eq_iff]
    change checkFlowCycle jobs = .ok () ↔ _
    rw [checkFlowCycle]
    by_cases hall : flowVisited jobs = jobs.length
    · simp [hall]
    · rw [if_pos hall]
      cases findDependencyCycle (flowEdges jobs) <;> simp [hall]

/-- What a flow that is validated has of distinct refs and parents that are there. -/
theorem flowJobs_of_validate (h : validateFlowJobs jobs = .ok ()) : FlowJobs jobs := by
  obtain ⟨-, -, hdistinct, -, -, hother, -⟩ := validateFlowJobs_ok.mp h
  refine ⟨hdistinct, fun job hjob ref href => ?_⟩
  obtain ⟨parent, hparent, rfl, -⟩ := hother job hjob ref href
  exact List.mem_map_of_mem hparent

/-- A job with each parent named once. -/
def FlowJob.dependsOnce (job : FlowJob) : FlowJob := { job with dependsOn := job.parents }

theorem wellFormedFlow_dependsOnce : WellFormedFlow (jobs.map FlowJob.dependsOnce) ↔ WellFormedFlow jobs := by
  have hfeeds : Feeds (jobs.map FlowJob.dependsOnce) = Feeds jobs := by
    funext parent child
    simp [Feeds, FlowJob.dependsOnce, FlowJob.parents]
  have hrefs : (jobs.map FlowJob.dependsOnce).map FlowJob.ref = jobs.map FlowJob.ref := List.map_map
  rw [wellFormedFlow_iff, wellFormedFlow_iff, flowChecks_ok, flowChecks_ok, hfeeds, hrefs, List.length_map]
  simp [FlowJob.dependsOnce, FlowJob.parents]

/-- A flow is accepted exactly if it is well formed, however often it names a dependency. One that only the
sort refuses has a cycle, and the error names one that is there. -/
theorem flows_validated (jobs : List FlowJob) :
    (validateFlowJobs jobs = .ok () ↔ WellFormedFlow jobs) ∧
      (validateFlowJobs (jobs.map FlowJob.dependsOnce) = .ok () ↔ validateFlowJobs jobs = .ok ()) ∧
      (flowChecks jobs = .ok () → ∀ e, validateFlowJobs jobs = .error e →
        ∃ cycle, findDependencyCycle (flowEdges jobs) = some cycle ∧ FlowCycle jobs cycle ∧
          e = .assertion ("flow contains a dependency cycle: " ++ " -> ".intercalate cycle)) := by
  refine ⟨validateFlowJobs_ok, ?_, fun hchecks e he => ?_⟩
  · rw [validateFlowJobs_ok, validateFlowJobs_ok, wellFormedFlow_dependsOnce]
  · have hgraph := flowGraph_of_checks hchecks
    have hcyclic : ¬ WellFormedFlow jobs := fun h => by
      rw [validateFlowJobs_ok.mpr h] at he
      contradiction
    have hnone : ¬ findDependencyCycle (flowEdges jobs) = none := by
      rw [findDependencyCycle, Adjacency.findCycle_eq_none_iff, hgraph.acyclic_iff]
      exact fun hacyclic => hcyclic (wellFormedFlow_iff.mpr ⟨hchecks, hacyclic⟩)
    obtain ⟨cycle, hcycle⟩ := Option.ne_none_iff_exists'.mp hnone
    have hclosed := Adjacency.closed_of_findCycle hcycle
    refine ⟨cycle, hcycle, ⟨hclosed.edges.imp fun _ _ => hgraph.edge_iff.mp, hclosed.length, hclosed.ends⟩, ?_⟩
    have hleft : flowVisited jobs ≠ jobs.length := fun hall =>
      hcyclic (wellFormedFlow_iff.mpr ⟨hchecks, hgraph.visited_eq_iff.mp hall⟩)
    rw [validateFlowJobs, hchecks] at he
    change checkFlowCycle jobs = _ at he
    rw [checkFlowCycle, if_pos hleft, hcycle] at he
    exact (Except.error.inj he).symm

/-- Two jobs that wait for each other. -/
def mutualFlow : List FlowJob :=
  [{ ref := "a", name := "article", dependsOn := ["b"] }, { ref := "b", name := "article", dependsOn := ["a"] }]

theorem flows_validated_mutual : ∃ cycle, FlowCycle mutualFlow cycle ∧ validateFlowJobs mutualFlow =
    .error (.assertion ("flow contains a dependency cycle: " ++ " -> ".intercalate cycle)) := by
  obtain ⟨haccepts, -, hcycle⟩ := flows_validated mutualFlow
  cases hvalidate : validateFlowJobs mutualFlow with
  | error e =>
    obtain ⟨cycle, -, hclosed, rfl⟩ := hcycle (by decide) e hvalidate
    exact ⟨cycle, hclosed, rfl⟩
  | ok u =>
    have hab : Feeds mutualFlow "a" "b" := ⟨_, List.mem_cons_of_mem _ List.mem_cons_self, rfl, List.mem_cons_self⟩
    have hba : Feeds mutualFlow "b" "a" := ⟨_, List.mem_cons_self, rfl, List.mem_cons_self⟩
    exact absurd (.tail (.single hab) hba) ((haccepts.mp hvalidate).acyclic "a")

end PgBoss
