import EtasFrontend.Analysis.CallsCollected
import EtasFrontend.Analysis.Loops
import EtasFrontend.Lib.Worklist
import Mathlib

/-! The solver ends with a post-fixpoint of the transfers, where its worklists converge. -/
namespace EtasFrontend.Analysis
open Lib HirAbstractInterpreter

variable {U D S : Type} [LinearOrder U] [AbstractDomain D] [AbstractDomain S]

/-- What is promised of the utilities. -/
structure SolverUtils.Correct (utils : SolverUtils U D S) : Prop where
  collectEngine : ∃ limit, utils.collectEngine = FixpointEngine.withLimit limit
  summaryEngine : ∃ limit, utils.summaryEngine = FixpointEngine.withLimit limit
  mem_components : ∀ graph unit,
    unit ∈ (utils.stronglyConnectedComponents graph).flatten ↔ unit ∈ graph.units
  nodup_components : ∀ graph, (utils.stronglyConnectedComponents graph).flatten.Nodup
  mem_order : ∀ graph order, utils.topologicalSort graph = some order →
    ∀ node, node ∈ order ↔ node ∈ graph.nodes
  nodup_order : ∀ graph order, utils.topologicalSort graph = some order → order.Nodup
  edges_order : ∀ graph order, utils.topologicalSort graph = some order →
    order.Pairwise fun earlier later => earlier ∉ graph.successors later
  worklist : ∀ initial nodes step dependents value,
    utils.trySolveWorklist initial nodes step dependents = (value, .converged) →
    WorklistRun step dependents initial nodes value

/-- Stabilizing a summary against what it was joined to does not lead above the join. -/
def InterproceduralSemantics.Stabilizes (semantics : InterproceduralSemantics U D S) : Prop :=
  ∀ context summary current,
    semantics.stabilizeSummary context summary
      (some (current ⊔ semantics.stabilizeSummary context summary (some current))) ≤
      current ⊔ semantics.stabilizeSummary context summary (some current)

namespace SummarySolver
variable {self : SummarySolver U D S}

/-- There is fuel for the bodies of all units. -/
def Enough (self : SummarySolver U D S) (fuel : ℕ) (units : List U) : Prop :=
  ∀ unit ∈ units, ∀ node, (self.semantics.bodyOf unit).node self.program = some node →
    (self.collector unit).control fuel node = (self.collector unit).plainControl node ∧
      (self.transferrer unit).control fuel node = (self.transferrer unit).plainControl node

omit [AbstractDomain S] in
theorem exists_enough (self : SummarySolver U D S) (units : List U) :
    ∃ enough, ∀ fuel, enough ≤ fuel → self.Enough fuel units := by
  obtain ⟨rank, hrank⟩ := self.program.acyclic
  induction units with
  | nil => exact ⟨0, fun fuel _ unit hunit => by cases hunit⟩
  | cons first rest ih =>
    obtain ⟨enough, henough⟩ := ih
    have hfirst : ∃ depth, ∀ node, (self.semantics.bodyOf first).node self.program = some node →
        6 ^ (rank node + 1) ≤ depth := by
      cases hnode : (self.semantics.bodyOf first).node self.program with
      | none => exact ⟨0, nofun⟩
      | some node =>
        refine ⟨6 ^ (rank node + 1), fun other hother => ?_⟩
        cases hother
        exact le_rfl
    obtain ⟨depth, hdepth⟩ := hfirst
    refine ⟨max depth enough, fun fuel hfuel unit hunit node hnode => ?_⟩
    rcases List.mem_cons.mp hunit with rfl | hrest
    · have hle := (hdepth node hnode).trans ((le_max_left _ _).trans hfuel)
      exact ⟨(self.collector unit).control_eq_of_rank hrank fuel node hle,
        (self.transferrer unit).control_eq_of_rank hrank fuel node hle⟩
    · exact henough fuel ((le_max_right _ _).trans hfuel) unit hrest node hnode

/-- The assumptions on an analysis for the units it is run on. -/
structure Analyzes (solver : SummarySolver U D S) (units : List U) : Prop where
  utils : solver.utils.Correct
  resolves : ∀ unit ∈ units, solver.ResolvesAlike unit
  keeps : ∀ unit ∈ units, solver.KeepsExits unit

variable {unit : U} {components : List (List U)}

section
variable {fuel : ℕ} {units : List U} {node : HirNode}

omit [AbstractDomain S] in
theorem body_covered (h : self.Analyzes units) (hfuel : self.Enough fuel units)
    (hunit : unit ∈ units)
    (hnode : (self.semantics.bodyOf unit).node self.program = some node) (state state' : D) :
    Covered unit Exits ((self.collector unit).control fuel node state)
      ((self.transferrer unit).control fuel node state') := by
  obtain ⟨limit, hengine⟩ := h.utils.collectEngine
  obtain ⟨limit', hengine'⟩ := h.utils.summaryEngine
  rw [(hfuel unit hunit node hnode).1, (hfuel unit hunit node hnode).2]
  exact plainControl_covered hengine hengine' (h.resolves unit hunit) (h.keeps unit hunit) node
    state state'

omit [AbstractDomain S] in
theorem le_collectUnit (h : self.Analyzes units) (hfuel : self.Enough fuel units)
    (hunit : unit ∈ units) (graph : CallGraph U) :
    graph.Le (self.collectUnit fuel graph unit) := by
  have hdeps : graph.Le ((self.semantics.unitDependencies unit).foldl
      (fun graph dependency => graph.addCall unit dependency) graph) :=
    CallGraph.foldl_le (fun graph callee => CallGraph.le_addCall graph unit callee) _ _
  unfold collectUnit
  dsimp only
  split
  · apply hdeps.trans
    unfold traverseBody
    cases hnode : (self.semantics.bodyOf unit).node (self.collector unit).program with
    | none => exact CallGraph.Le.refl _
    | some node =>
      have hcovered := body_covered h hfuel hunit hnode AbstractDomain.bottom
        AbstractDomain.bottom
      exact hcovered.grows _ _
  · exact hdeps

omit [AbstractDomain S] in
theorem le_foldl_collectUnit (h : self.Analyzes units) (hfuel : self.Enough fuel units)
    {rest : List U} (hrest : ∀ unit ∈ rest, unit ∈ units) (graph : CallGraph U) :
    graph.Le (rest.foldl (self.collectUnit fuel) graph) := by
  induction rest generalizing graph with
  | nil => exact CallGraph.Le.refl graph
  | cons first rest ih =>
    have hfirst := le_collectUnit h hfuel (hrest first List.mem_cons_self) graph
    exact hfirst.trans (ih (fun unit hu => hrest unit (List.mem_cons_of_mem _ hu)) _)

omit [AbstractDomain S] in
theorem exists_collectUnit_le (h : self.Analyzes units) (hfuel : self.Enough fuel units)
    {rest : List U} (hrest : ∀ unit ∈ rest, unit ∈ units) (hunit : unit ∈ rest)
    (graph : CallGraph U) :
    ∃ start, (self.collectUnit fuel start unit).Le (rest.foldl (self.collectUnit fuel) graph) := by
  induction rest generalizing graph with
  | nil => cases hunit
  | cons first rest ih =>
    have htail : ∀ unit ∈ rest, unit ∈ units := fun unit hu =>
      hrest unit (List.mem_cons_of_mem _ hu)
    rcases List.mem_cons.mp hunit with rfl | hmem
    · exact ⟨graph, le_foldl_collectUnit h hfuel htail _⟩
    · exact ih htail hmem _

omit [AbstractDomain S] in
theorem collectUnit_eq
    (hnode : (self.semantics.bodyOf unit).node self.program = some node) (graph : CallGraph U) :
    self.collectUnit fuel graph unit =
      (collected ((self.collector unit).control fuel node AbstractDomain.bottom)
        self.utils.maxIterations ((self.semantics.unitDependencies unit).foldl
          (fun graph dependency => graph.addCall unit dependency) graph)).2 := by
  unfold collectUnit traverseBody
  cases hbody : self.semantics.bodyOf unit <;> rw [hbody] at hnode <;> cases hnode <;> rfl

omit [AbstractDomain S] in
theorem bodySummary_traversed
    (hnode : (self.semantics.bodyOf unit).node self.program = some node) (state : SolverState U S) :
    (self.bodySummary fuel unit state).1 = self.semantics.endUnit ⟨unit, .solveSummaries⟩
      (applied ((self.transferrer unit).control fuel node
        (self.semantics.beginUnit ⟨unit, .solveSummaries⟩)) self.utils.maxIterations state.1
          state.2).1.1 := by
  unfold bodySummary traverseBody
  cases hbody : self.semantics.bodyOf unit <;> rw [hbody] at hnode <;> cases hnode <;> rfl

omit [AbstractDomain S] in
theorem bodySummary_congr (h : self.Analyzes units) (hfuel : self.Enough fuel units)
    (hunit : unit ∈ units) {state state' : SolverState U S}
    (hget : ∀ callee ∈ (self.buildCallGraph fuel units).dependencies unit,
      state.1.get callee = state'.1.get callee) :
    (self.bodySummary fuel unit state).1 = (self.bodySummary fuel unit state').1 := by
  cases hnode : (self.semantics.bodyOf unit).node self.program with
  | none =>
    unfold bodySummary
    cases hbody : self.semantics.bodyOf unit <;> rw [hbody] at hnode <;> first | rfl | cases hnode
  | some node =>
    obtain ⟨start, hle⟩ := exists_collectUnit_le h hfuel (fun _ hu => hu) hunit
      (units.foldl CallGraph.addUnit CallGraph.new)
    rw [collectUnit_eq hnode] at hle
    have hcovered := body_covered h hfuel hunit hnode AbstractDomain.bottom
      (self.semantics.beginUnit ⟨unit, .solveSummaries⟩)
    have hreads := (hcovered self.utils.maxIterations _).2.1.mono (hle.2 unit)
    rw [bodySummary_traversed hnode, bodySummary_traversed hnode,
      hreads self.utils.maxIterations state.1 state'.1 state.2 state'.2 hget]

theorem get_transferUnit_ne {unit other : U} (hne : other ≠ unit) (state : SolverState U S) :
    (self.transferUnit fuel unit state).1.1.get other = state.1.get other := by
  unfold transferUnit SummaryStore.joinSummary
  cases state.1.get unit with
  | some current => exact Map.get_insert_ne _ hne _
  | none => exact Map.get_insert_ne _ hne _

variable {state : SolverState U S}

theorem get_transferUnit_self {current : S} (hget : state.1.get unit = some current) :
    (self.transferUnit fuel unit state).1.1.get unit =
        some (current ⊔ self.unitSummary fuel unit state) ∧
      (self.transferUnit fuel unit state).2 =
        AbstractDomain.joinChanges current (self.unitSummary fuel unit state) := by
  unfold transferUnit SummaryStore.joinSummary
  rw [hget]
  exact ⟨Map.get_insert_self _ _ _, rfl⟩

theorem transferUnit_of_none (hget : state.1.get unit = none) :
    (self.transferUnit fuel unit state).2 = true ∧
      ((self.transferUnit fuel unit state).1.1.get unit).isSome := by
  unfold transferUnit SummaryStore.joinSummary
  rw [hget]
  refine ⟨rfl, ?_⟩
  rw [Map.get_insert_self]
  rfl

theorem get_transferUnit_unchanged
    (hchanges : ∀ a b : S, AbstractDomain.joinChanges a b = false → a ⊔ b = a)
    (h : (self.transferUnit fuel unit state).2 = false) (other : U) :
    (self.transferUnit fuel unit state).1.1.get other = state.1.get other := by
  by_cases hother : other = unit
  · subst hother
    cases hget : state.1.get other with
    | none =>
      rw [(transferUnit_of_none hget).1] at h
      cases h
    | some current =>
      rw [(get_transferUnit_self hget).2] at h
      rw [(get_transferUnit_self hget).1, hchanges _ _ h]
  · exact get_transferUnit_ne hother state

/-- The summary of a unit is above what its transfer gives. -/
def PostFixed (self : SummarySolver U D S) (fuel : ℕ) (unit : U) (state : SolverState U S) : Prop :=
  ∃ stored, state.1.get unit = some stored ∧ self.unitSummary fuel unit state ≤ stored

theorem PostFixed.congr (h : self.Analyzes units) (hfuel : self.Enough fuel units)
    (hunit : unit ∈ units) {state state' : SolverState U S}
    (hdeps : ∀ callee ∈ (self.buildCallGraph fuel units).dependencies unit,
      state.1.get callee = state'.1.get callee) (hself : state.1.get unit = state'.1.get unit)
    (hpost : self.PostFixed fuel unit state) :
    self.PostFixed fuel unit state' := by
  obtain ⟨stored, hget, hle⟩ := hpost
  refine ⟨stored, hself ▸ hget, ?_⟩
  unfold unitSummary at hle ⊢
  rw [← bodySummary_congr h hfuel hunit hdeps, ← hself]
  exact hle

/-- A transfer settles its own unit, and unsettles only units that depend on it. -/
theorem transferUnit_settles (h : self.Analyzes units) (hfuel : self.Enough fuel units)
    (hchanges : ∀ a b : S, AbstractDomain.joinChanges a b = false → a ⊔ b = a)
    (hstable : self.semantics.Stabilizes) {unit other : U} (hother : other ∈ units)
    (hentry : (state.1.get other).isSome)
    (hbefore : other = unit ∨ self.PostFixed fuel other state) :
    self.PostFixed fuel other (self.transferUnit fuel unit state).1 ∨
      (self.transferUnit fuel unit state).2 = true ∧
        unit ∈ (self.buildCallGraph fuel units).dependencies other := by
  cases hflag : (self.transferUnit fuel unit state).2 with
  | false =>
    have hsame : ∀ callee, state.1.get callee =
        (self.transferUnit fuel unit state).1.1.get callee :=
      fun callee => (get_transferUnit_unchanged hchanges hflag callee).symm
    have hpost : self.PostFixed fuel other state := by
      rcases hbefore with rfl | hpost
      · obtain ⟨current, hget⟩ := Option.isSome_iff_exists.mp hentry
        refine ⟨current, hget, ?_⟩
        rw [(get_transferUnit_self hget).2] at hflag
        exact sup_eq_left.mp (hchanges _ _ hflag)
      · exact hpost
    exact Or.inl (hpost.congr h hfuel hother (fun callee _ => hsame callee) (hsame other))
  | true =>
    by_cases hdep : unit ∈ (self.buildCallGraph fuel units).dependencies other
    · exact Or.inr ⟨rfl, hdep⟩
    · left
      have hdeps : ∀ callee ∈ (self.buildCallGraph fuel units).dependencies other,
          state.1.get callee = (self.transferUnit fuel unit state).1.1.get callee := by
        intro callee hcallee
        have hne : callee ≠ unit := fun heq => hdep (heq ▸ hcallee)
        exact (get_transferUnit_ne hne state).symm
      by_cases heq : other = unit
      · subst heq
        obtain ⟨current, hget⟩ := Option.isSome_iff_exists.mp hentry
        have hstored : (self.transferUnit fuel other state).1.1.get other =
            some (current ⊔ self.unitSummary fuel other state) := (get_transferUnit_self hget).1
        refine ⟨_, hstored, ?_⟩
        have hbody := bodySummary_congr h hfuel hother hdeps
        have hlaw := hstable ⟨other, .solveSummaries⟩ (self.bodySummary fuel other state).1 current
        rw [unitSummary, ← hbody, hstored, unitSummary, hget]
        exact hlaw
      · have hpost := hbefore.resolve_left heq
        exact hpost.congr h hfuel hother hdeps (get_transferUnit_ne heq state).symm

variable {progress : SolverState U S × List (ComponentConvergence U)}

theorem solveComponent_eq {graph : CallGraph U} {component : List U} {status : ConvergenceStatus}
    (h : self.utils.trySolveWorklist progress.1 component (self.transferUnit fuel)
      (fun unit _ => componentDependents graph component unit) = (state, status)) :
    (self.solveComponent fuel graph progress component).1.1 = state.1 ∧
      (self.solveComponent fuel graph progress component).2 =
        progress.2 ++ [⟨component, status⟩] := by
  unfold solveComponent
  rw [h]
  exact ⟨rfl, rfl⟩

/-- No unit of the first list depends on one of the second. -/
def Independent (graph : CallGraph U) (callers callees : List U) : Prop :=
  ∀ caller ∈ callers, ∀ callee ∈ callees, callee ∉ graph.dependencies caller

/-- The units that are settled before a component stay so, and those of the component are settled
where its worklist has converged. -/
theorem solveComponent_settles (h : self.Analyzes units) (hfuel : self.Enough fuel units)
    (hchanges : ∀ a b : S, AbstractDomain.joinChanges a b = false → a ⊔ b = a)
    (hstable : self.semantics.Stabilizes) {component earlier : List U}
    (hindependent : Independent (self.buildCallGraph fuel units) earlier component)
    (hentries : ∀ unit ∈ units, (progress.1.1.get unit).isSome)
    (hsettled : ∀ unit ∈ units, unit ∈ earlier → self.PostFixed fuel unit progress.1)
    (hconverged : ∀ entry ∈ (self.solveComponent fuel (self.buildCallGraph fuel units) progress
      component).2, entry.status = .converged) :
    (∀ unit ∈ units, ((self.solveComponent fuel (self.buildCallGraph fuel units) progress
        component).1.1.get unit).isSome) ∧
      ∀ unit ∈ units, unit ∈ earlier ++ component → self.PostFixed fuel unit
        (self.solveComponent fuel (self.buildCallGraph fuel units) progress component).1 := by
  obtain ⟨⟨state, status⟩, hsolve⟩ : ∃ result, self.utils.trySolveWorklist progress.1 component
      (self.transferUnit fuel) (fun unit _ =>
        componentDependents (self.buildCallGraph fuel units) component unit) = result := ⟨_, rfl⟩
  obtain ⟨hstate, hlist⟩ := solveComponent_eq hsolve
  have hstatus : status = .converged := by
    apply hconverged ⟨component, status⟩
    rw [hlist]
    exact List.mem_append_right _ List.mem_cons_self
  subst hstatus
  have hrun := h.utils.worklist _ _ _ _ _ hsolve
  have hfinal := WorklistRun.settles (· ∈ component)
    (fun unit => unit ∈ units ∧ unit ∈ earlier ++ component)
    (fun state => ∀ unit ∈ units, (state.1.get unit).isSome)
    (fun unit state => self.PostFixed fuel unit state) ?_ ?_ ?_ hrun (fun _ h => h) hentries ?_
  · rw [hstate]
    refine ⟨hfinal.1, fun unit hunit hmem => ?_⟩
    apply (hfinal.2 unit ⟨hunit, hmem⟩).congr h hfuel hunit
    · exact fun callee _ => congrArg (fun summaries => Map.get summaries callee) hstate.symm
    · exact congrArg (fun summaries => Map.get summaries unit) hstate.symm
  · intro node state other hother
    exact List.contains_iff_mem.mp (List.mem_filter.mp hother).2
  · intro node state _ hstart unit hunit
    by_cases hne : unit = node
    · subst hne
      cases hget : state.1.get unit with
      | none => exact (transferUnit_of_none hget).2
      | some current =>
        rw [(get_transferUnit_self hget).1]
        rfl
    · rw [get_transferUnit_ne hne]
      exact hstart unit hunit
  · intro node state other hnode hother hstart hbefore
    have hsettles := transferUnit_settles h hfuel hchanges hstable hother.1
      (hstart other hother.1) hbefore
    refine hsettles.imp id fun hchanged => ⟨hchanged.1, ?_⟩
    rcases List.mem_append.mp hother.2 with hearlier | hcomponent
    · exact absurd hchanged.2 (hindependent other hearlier node hnode)
    · apply List.mem_filter.mpr
      exact ⟨CallGraph.mem_dependents.mpr hchanged.2, List.contains_iff_mem.mpr hcomponent⟩
  · intro other hother
    rcases List.mem_append.mp hother.2 with hearlier | hcomponent
    · exact Or.inr (hsettled other hother.1 hearlier)
    · exact Or.inl hcomponent

variable (self fuel) in
theorem convergence_foldl (graph : CallGraph U) (components : List (List U))
    (progress : SolverState U S × List (ComponentConvergence U)) :
    ∃ added, (components.foldl (self.solveComponent fuel graph) progress).2 = progress.2 ++ added ∧
      added.map ComponentConvergence.units = components := by
  induction components generalizing progress with
  | nil => exact ⟨[], (List.append_nil _).symm, rfl⟩
  | cons component components ih =>
    obtain ⟨added, hadded, hunits⟩ := ih (self.solveComponent fuel graph progress component)
    obtain ⟨⟨state, status⟩, hsolve⟩ : ∃ result, self.utils.trySolveWorklist progress.1 component
        (self.transferUnit fuel) (fun unit _ => componentDependents graph component unit) =
          result := ⟨_, rfl⟩
    rw [(solveComponent_eq hsolve).2] at hadded
    refine ⟨⟨component, status⟩ :: added, ?_, ?_⟩
    · rw [List.foldl_cons, hadded, List.append_assoc]
      rfl
    · rw [List.map_cons, hunits]

theorem solveComponents_settle (h : self.Analyzes units) (hfuel : self.Enough fuel units)
    (hchanges : ∀ a b : S, AbstractDomain.joinChanges a b = false → a ⊔ b = a)
    (hstable : self.semantics.Stabilizes) {earlier : List U}
    (hordered : components.Pairwise (Independent (self.buildCallGraph fuel units)))
    (hindependent : ∀ component ∈ components,
      Independent (self.buildCallGraph fuel units) earlier component)
    (hentries : ∀ unit ∈ units, (progress.1.1.get unit).isSome)
    (hsettled : ∀ unit ∈ units, unit ∈ earlier → self.PostFixed fuel unit progress.1)
    (hconverged : ∀ entry ∈ (components.foldl
      (self.solveComponent fuel (self.buildCallGraph fuel units)) progress).2,
      entry.status = .converged) :
    ∀ unit ∈ units, unit ∈ earlier ++ components.flatten → self.PostFixed fuel unit
      (components.foldl (self.solveComponent fuel (self.buildCallGraph fuel units)) progress).1 := by
  induction components generalizing earlier progress with
  | nil =>
    intro unit hunit hmem
    rw [List.flatten_nil, List.append_nil] at hmem
    exact hsettled unit hunit hmem
  | cons component components ih =>
    rw [List.pairwise_cons] at hordered
    rw [List.foldl_cons] at hconverged ⊢
    obtain ⟨added, hadded, _⟩ := self.convergence_foldl fuel
      (self.buildCallGraph fuel units) components
      (self.solveComponent fuel (self.buildCallGraph fuel units) progress component)
    have hstep := solveComponent_settles h hfuel hchanges hstable
      (hindependent component List.mem_cons_self) hentries hsettled fun entry hentry =>
        hconverged entry (hadded ▸ List.mem_append_left _ hentry)
    rw [List.flatten_cons, ← List.append_assoc]
    apply ih hordered.2 _ hstep.1 hstep.2 hconverged
    intro later hlater caller hcaller
    rcases List.mem_append.mp hcaller with hearlier | hcomponent
    · exact hindependent later (List.mem_cons_of_mem _ hlater) caller hearlier
    · exact hordered.1 later hlater caller hcomponent

end

/-! The order of the components. -/

omit [LinearOrder U] [AbstractDomain D] [AbstractDomain S] in
theorem index_unique (hnodup : components.flatten.Nodup) {i j : ℕ} (hi : i < components.length)
    (hj : j < components.length) (hunit : unit ∈ components[i]) (hunit' : unit ∈ components[j]) :
    i = j := by
  have hdisjoint := List.pairwise_iff_getElem.mp (List.nodup_flatten.mp hnodup).2
  rcases lt_trichotomy i j with hlt | heq | hgt
  · exact absurd hunit' (hdisjoint i j hi hj hlt hunit)
  · exact heq
  · exact absurd hunit (hdisjoint j i hj hi hgt hunit')

omit [AbstractDomain D] [AbstractDomain S] in
theorem componentOf_eq (hnodup : components.flatten.Nodup) {i : ℕ} (hi : i < components.length)
    (hunit : unit ∈ components[i]) :
    componentOf components unit = i := by
  have hmem : ∀ j, (unit, j) ∈ (components.zipIdx.flatMap fun entry =>
      entry.1.map fun node => (node, entry.2)) ↔ ∃ hj : j < components.length,
        unit ∈ components[j] := by
    intro j
    rw [List.mem_flatMap]
    constructor
    · rintro ⟨⟨component, index⟩, hentry, hpair⟩
      obtain ⟨node, hnode, heq⟩ := List.mem_map.mp hpair
      cases heq
      rw [List.mem_zipIdx_iff_getElem?] at hentry
      obtain ⟨hj, heq⟩ := List.getElem?_eq_some_iff.mp hentry
      exact ⟨hj, heq ▸ hnode⟩
    · rintro ⟨hj, hnode⟩
      refine ⟨(components[j], j), ?_, List.mem_map.mpr ⟨unit, hnode, rfl⟩⟩
      rw [List.mem_zipIdx_iff_getElem?]
      exact List.getElem?_eq_getElem hj
  have hget : (componentByNode components).get unit = some i := by
    apply Map.get_ofList_of_unique ((hmem i).mpr ⟨hi, hunit⟩)
    intro j hj
    obtain ⟨hj, hunit'⟩ := (hmem j).mp hj
    exact index_unique hnodup hj hi hunit' hunit
  rw [componentOf, hget]
  rfl

theorem mem_foldl_add {edges : List (ℕ × ℕ)} {sets : UnitSets ℕ} {a b : ℕ}
    (h : b ∈ sets.of a ∨ (a, b) ∈ edges) :
    b ∈ (edges.foldl (fun sets edge => UnitSets.add sets edge.1 edge.2) sets).of a := by
  induction edges generalizing sets with
  | nil => exact h.resolve_right nofun
  | cons edge edges ih =>
    apply ih
    rw [UnitSets.mem_of_add, List.mem_cons] at *
    rcases h with hold | rfl | hrest
    · exact Or.inl (Or.inl hold)
    · exact Or.inl (Or.inr ⟨rfl, rfl⟩)
    · exact Or.inr hrest

variable {graph : CallGraph U}

omit [AbstractDomain D] [AbstractDomain S] in
theorem mem_successors (hnodup : components.flatten.Nodup) {i j : ℕ}
    (hi : i < components.length) (hj : j < components.length) (hne : i ≠ j) {caller callee : U}
    (hcaller : caller ∈ components[i]) (hcallee : callee ∈ components[j])
    (hdep : callee ∈ graph.dependencies caller) :
    j ∈ (componentGraph graph components).successors i := by
  apply mem_foldl_add
  right
  refine List.mem_flatMap.mpr ⟨caller, CallGraph.caller_mem_units hdep, ?_⟩
  apply List.mem_filter.mpr
  constructor
  · apply List.mem_map.mpr
    refine ⟨callee, hdep, ?_⟩
    rw [componentOf_eq hnodup hi hcaller, componentOf_eq hnodup hj hcallee]
  · simpa using hne

omit [AbstractDomain D] [AbstractDomain S] in
theorem flatten_sortedComponents (graph : CallGraph U) :
    (self.sortedComponents graph).flatten.Perm
      (self.utils.stronglyConnectedComponents graph).flatten := by
  have hperm := List.Perm.flatMap_left (self.utils.stronglyConnectedComponents graph)
    (f := List.insertionSort (· ≤ ·)) (g := id) fun component _ => List.perm_insertionSort _ _
  rwa [List.flatMap_id] at hperm

omit [AbstractDomain D] [AbstractDomain S] in
theorem orderedComponents_spec (hutils : self.utils.Correct)
    (h : self.orderedComponents graph = some components) :
    components.Pairwise (Independent graph) ∧
      ∀ unit ∈ graph.units, unit ∈ components.flatten := by
  obtain ⟨order, horder, rfl⟩ := Option.map_eq_some_iff.mp h
  have hperm : (self.sortedComponents graph).flatten.Perm
      (self.utils.stronglyConnectedComponents graph).flatten := flatten_sortedComponents graph
  have hnodup := hperm.nodup_iff.mpr (hutils.nodup_components graph)
  have hindex : ∀ i ∈ order, i < (self.sortedComponents graph).length := fun i hi =>
    List.mem_range.mp ((hutils.mem_order _ order horder i).mp hi)
  constructor
  · rw [List.pairwise_map, List.pairwise_reverse]
    apply List.Pairwise.imp_of_mem _ ((hutils.edges_order _ order horder).and
      (hutils.nodup_order _ order horder))
    intro i j hi hj hij caller hcaller callee hcallee hdep
    have hi' := hindex i hi
    have hj' := hindex j hj
    rw [List.getD_eq_getElem _ _ hj'] at hcaller
    rw [List.getD_eq_getElem _ _ hi'] at hcallee
    exact hij.1 (mem_successors hnodup hj' hi' (Ne.symm hij.2) hcaller hcallee hdep)
  · intro unit hunit
    have hmem := hperm.mem_iff.mpr ((hutils.mem_components graph unit).mpr hunit)
    obtain ⟨component, hcomponent, hin⟩ := List.mem_flatten.mp hmem
    obtain ⟨i, hi, rfl⟩ := List.getElem_of_mem hcomponent
    have hiorder := (hutils.mem_order _ order horder i).mpr (List.mem_range.mpr hi)
    apply List.mem_flatten.mpr
    refine ⟨_, List.mem_map.mpr ⟨i, List.mem_reverse.mpr hiorder, rfl⟩, ?_⟩
    rw [List.getD_eq_getElem _ _ hi]
    exact hin

variable {units : List U}

omit [AbstractDomain D] in
theorem isSome_ensureBottom {summaries : SummaryStore U S}
    (h : unit ∈ units ∨ (summaries.get unit).isSome) :
    (Map.get (units.foldl SummaryStore.ensureBottom summaries) unit).isSome := by
  induction units generalizing summaries with
  | nil => exact h.resolve_left nofun
  | cons first units ih =>
    apply ih
    rw [SummaryStore.ensureBottom, Map.get_orInsert, Option.isSome_or]
    rcases h with hmem | hsome
    · rcases List.mem_cons.mp hmem with rfl | hrest
      · right
        simp
      · exact Or.inl hrest
    · right
      simp [hsome]

theorem mem_units_foldl_addUnit (h : unit ∈ units ∨ unit ∈ graph.units) :
    unit ∈ (units.foldl CallGraph.addUnit graph).units := by
  induction units generalizing graph with
  | nil => exact h.resolve_left nofun
  | cons first rest ih =>
    apply ih
    rw [CallGraph.mem_units_addUnit]
    rcases h with hmem | hgraph
    · rcases List.mem_cons.mp hmem with rfl | hrest
      · exact Or.inr (Or.inr rfl)
      · exact Or.inl hrest
    · exact Or.inr (Or.inl hgraph)

omit [AbstractDomain S] in
theorem mem_units_buildCallGraph {fuel : ℕ} (h : self.Analyzes units)
    (hfuel : self.Enough fuel units) (hunit : unit ∈ units) :
    unit ∈ (self.buildCallGraph fuel units).units :=
  (le_foldl_collectUnit h hfuel (fun _ hu => hu) _).1 unit
    (mem_units_foldl_addUnit (Or.inl hunit))

/-- The units as the solver runs on them. -/
def sortedUnits (units : List U) : List U := (units.insertionSort (· ≤ ·)).dedup

theorem mem_sortedUnits : unit ∈ sortedUnits units ↔ unit ∈ units := by
  rw [sortedUnits, List.mem_dedup, List.mem_insertionSort]

/-- The run over the components, from the bottom summaries. -/
def finalProgress (self : SummarySolver U D S) (fuel : ℕ) (units : List U)
    (components : List (List U)) : SolverState U S × List (ComponentConvergence U) :=
  components.foldl (self.solveComponent fuel (self.buildCallGraph fuel units))
    ((units.foldl SummaryStore.ensureBottom ∅, []), [])

theorem solve_eq {fuel : ℕ}
    (h : self.orderedComponents (self.buildCallGraph fuel (sortedUnits units)) = some components) :
    self.solve fuel units =
      ⟨(self.finalProgress fuel (sortedUnits units) components).1.1,
        self.buildCallGraph fuel (sortedUnits units),
        (self.finalProgress fuel (sortedUnits units) components).2,
        (self.finalProgress fuel (sortedUnits units) components).1.2⟩ := by
  unfold sortedUnits at h
  unfold solve
  dsimp only
  rw [h]
  rfl

/-- Where all worklists of the solver converge and it has nothing to report, its summaries are a
post-fixpoint of the transfers of its units, and each component was processed after those that it
calls. -/
theorem solve_postFixpoint (hutils : self.utils.Correct)
    (hchanges : ∀ a b : S, AbstractDomain.joinChanges a b = false → a ⊔ b = a)
    (hstable : self.semantics.Stabilizes) (units : List U)
    (hresolves : ∀ unit ∈ units, self.ResolvesAlike unit)
    (hkeeps : ∀ unit ∈ units, self.KeepsExits unit) :
    ∃ enough, ∀ fuel, enough ≤ fuel →
      (∀ component ∈ (self.solve fuel units).convergence, component.status = .converged) →
      (self.solve fuel units).diagnostics = [] →
      (∀ unit ∈ units, ∃ stored, (self.solve fuel units).summaries.get unit = some stored ∧
        self.unitSummary fuel unit
          ((self.solve fuel units).summaries, (self.solve fuel units).diagnostics) ≤ stored) ∧
      ∀ before component after,
        (self.solve fuel units).convergence.map ComponentConvergence.units =
          before ++ component :: after →
        ∀ caller ∈ component, ∀ callee ∈ (self.solve fuel units).callGraph.dependencies caller,
          callee ∈ component ∨ ∃ earlier ∈ before, callee ∈ earlier := by
  have hanalyzes : self.Analyzes (sortedUnits units) :=
    ⟨hutils, fun unit hu => hresolves unit (mem_sortedUnits.mp hu),
      fun unit hu => hkeeps unit (mem_sortedUnits.mp hu)⟩
  obtain ⟨enough, henough⟩ := self.exists_enough (sortedUnits units)
  refine ⟨enough, fun fuel hle hconverged hdiagnostics => ?_⟩
  have hfuel := henough fuel hle
  cases horder : self.orderedComponents (self.buildCallGraph fuel (sortedUnits units)) with
  | none =>
    unfold solve at hdiagnostics
    unfold sortedUnits at horder
    dsimp only at hdiagnostics
    rw [horder] at hdiagnostics
    cases hdiagnostics
  | some components =>
    obtain ⟨hordered, hcover⟩ := orderedComponents_spec hutils horder
    rw [solve_eq horder] at hconverged ⊢
    constructor
    · intro unit hunit
      have hsorted := mem_sortedUnits.mpr hunit
      have hfirst : ∀ component ∈ components,
          Independent (self.buildCallGraph fuel (sortedUnits units)) [] component :=
        fun _ _ _ hcaller => by cases hcaller
      apply solveComponents_settle hanalyzes hfuel hchanges hstable hordered hfirst
        (fun unit hu => isSome_ensureBottom (Or.inl hu))
        (fun unit _ hearlier => by cases hearlier) hconverged unit hsorted
      rw [List.nil_append]
      exact hcover unit (mem_units_buildCallGraph hanalyzes hfuel hsorted)
    · intro before component after hsplit caller hcaller callee hcallee
      obtain ⟨added, hadded, hunits⟩ := self.convergence_foldl fuel
        (self.buildCallGraph fuel (sortedUnits units)) components
        (((sortedUnits units).foldl SummaryStore.ensureBottom ∅, []), [])
      have hcomponents : components = before ++ component :: after := by
        rw [← hunits, ← hsplit]
        exact congrArg _ hadded.symm
      have hmem := hcover callee (CallGraph.dependency_mem_units hcallee)
      rw [hcomponents, List.flatten_append, List.flatten_cons, List.mem_append,
        List.mem_append] at hmem
      rw [hcomponents, List.pairwise_append, List.pairwise_cons] at hordered
      rcases hmem with hbefore | hcomponent | hafter
      · obtain ⟨earlier, hearlier, hin⟩ := List.mem_flatten.mp hbefore
        exact Or.inr ⟨earlier, hearlier, hin⟩
      · exact Or.inl hcomponent
      · obtain ⟨later, hlater, hin⟩ := List.mem_flatten.mp hafter
        exact absurd hcallee (hordered.2.1.1 later hlater caller hcaller callee hin)

end SummarySolver

/-! Two units: the second calls the first, whose summary is known. -/

def callExprs : HirExprId → HirExpr
  | 0 => .call 1 []
  | _ => .literal

def callProgram : HirProgram where
  exprs := callExprs
  stmts := fun _ => .break
  blocks := fun _ => ⟨[], none⟩
  handlerArms := fun _ => ⟨0⟩
  acyclic := by
    refine ⟨fun node => if node = .expr 0 then 1 else 0, fun node child h => ?_⟩
    cases node with
    | expr e =>
      dsimp only [HirArenas.children] at h
      unfold callExprs at h
      split at h <;> simp [HirExpr.children] at h
      subst h
      decide
    | stmt s => cases h
    | block b => cases h
  elseIf := by
    intro expr cond thenBlock next h
    unfold callExprs at h
    split at h <;> cases h

/-- The levels of `Fin 3` above the bottom. -/
def level : Fin 3 := Fin.castSucc (Fin.last 1)

def top : Fin 3 := Fin.last 2

def pairSemantics (hooks : HirAnalysisSemantics Id (Fin 3)) (target : AnalysisPhase → CallTarget ℕ)
    (stabilize : Fin 3 → Option (Fin 3) → Fin 3) :
    InterproceduralSemantics ℕ (Fin 3) (Fin 3) where
  hooks := hooks
  bodyOf unit := if unit = 0 then .external else .expr 0
  beginUnit _ := AbstractDomain.bottom
  endUnit _ exit := exit.normalState.getD AbstractDomain.bottom
  stabilizeSummary _ := stabilize
  externalSummary _ := level
  missingSummary _ := top
  unitDependencies _ := []
  callTarget context _ _ _ := target context.phase
  methodCallTarget _ _ _ := none
  specMethodCallTarget _ _ _ := none
  handlerArmDependency _ _ := none
  anonymousFlowDependency _ _ := none
  expressionDependencies _ _ := []
  directCall _ _ _ summary _ := summary
  dynamicCall _ _ state := state
  externalCall _ _ state := state
  incompleteCall _ _ _ := top

/-- Utilities for graphs without recursion between units. -/
def pairUtils : SolverUtils ℕ (Fin 3) (Fin 3) where
  maxIterations := 100
  collectEngine := FixpointEngine.withLimit 100
  summaryEngine := FixpointEngine.withLimit 100
  stronglyConnectedComponents graph := graph.units.map fun unit => [unit]
  topologicalSort graph := [graph.nodes, graph.nodes.reverse].find? fun order => decide
    (order.Nodup ∧ order.Pairwise fun earlier later => earlier ∉ graph.successors later)
  trySolveWorklist initial nodes step dependents :=
    ((drain step dependents 100 initial nodes).1,
      if (drain step dependents 100 initial nodes).2.isEmpty then .converged
      else .iterationLimitReached)

theorem pairUtils_correct : pairUtils.Correct where
  collectEngine := ⟨100, rfl⟩
  summaryEngine := ⟨100, rfl⟩
  mem_components graph unit := by simp [pairUtils, List.mem_flatten]
  nodup_components graph := by
    have hflatten : (graph.units.map fun unit => [unit]).flatten = graph.units := by
      induction graph.units with
      | nil => rfl
      | cons unit units ih => rw [List.map_cons, List.flatten_cons, ih, List.singleton_append]
    change (graph.units.map fun unit => [unit]).flatten.Nodup
    rw [hflatten]
    exact graph.nodup_units
  mem_order graph order h node := by
    have hmem := List.mem_of_find?_eq_some h
    simp only [List.mem_cons, List.not_mem_nil, or_false] at hmem
    rcases hmem with rfl | rfl
    · exact Iff.rfl
    · exact List.mem_reverse
  nodup_order graph order h := by
    have hfound := List.find?_some h
    exact (of_decide_eq_true hfound).1
  edges_order graph order h := by
    have hfound := List.find?_some h
    exact (of_decide_eq_true hfound).2
  worklist initial nodes step dependents value h := by
    apply drain_run
    have hvalue := congrArg Prod.fst h
    have hstatus := congrArg Prod.snd h
    dsimp only [pairUtils] at hvalue hstatus
    split at hstatus
    next hempty =>
      rw [List.isEmpty_iff] at hempty
      exact Prod.ext hvalue hempty
    next => cases hstatus

def pairSolver : SummarySolver ℕ (Fin 3) (Fin 3) :=
  ⟨callProgram, pairSemantics HirAnalysisSemantics.idle (fun _ => .direct 0) fun summary _ => summary,
    pairUtils⟩

theorem pairSolver_keeps (unit : ℕ) : pairSolver.KeepsExits unit where
  afterExpr expr control := (Control.Within.refl control).withinOr _
  tryExpr expr entry control := (Control.Within.refl control).withinOr _
  handleExpr expr entry parts := (Control.Within.refl _).withinOr _
  captured expr state h := by cases h

namespace SummarySolver

/-- The solver meets the conditions on the two units, and transfers the callee first. -/
theorem solve_postFixpoint_pair :
    (∀ component ∈ (pairSolver.solve 20 [0, 1]).convergence, component.status = .converged) ∧
    (pairSolver.solve 20 [0, 1]).diagnostics = [] ∧
    ∃ enough, ∀ fuel, enough ≤ fuel →
      (∀ component ∈ (pairSolver.solve fuel [0, 1]).convergence, component.status = .converged) →
      (pairSolver.solve fuel [0, 1]).diagnostics = [] →
      (∀ unit ∈ [0, 1], ∃ stored,
        (pairSolver.solve fuel [0, 1]).summaries.get unit = some stored ∧
        pairSolver.unitSummary fuel unit ((pairSolver.solve fuel [0, 1]).summaries,
          (pairSolver.solve fuel [0, 1]).diagnostics) ≤ stored) ∧
      ∀ before component after,
        (pairSolver.solve fuel [0, 1]).convergence.map ComponentConvergence.units =
          before ++ component :: after →
        ∀ caller ∈ component,
          ∀ callee ∈ (pairSolver.solve fuel [0, 1]).callGraph.dependencies caller,
          callee ∈ component ∨ ∃ earlier ∈ before, callee ∈ earlier := by
  refine ⟨by decide, by decide, ?_⟩
  have hchanges : ∀ a b : Fin 3, AbstractDomain.joinChanges a b = false → a ⊔ b = a := by decide
  have hstable : pairSolver.semantics.Stabilizes := fun context summary current => le_sup_right
  exact solve_postFixpoint pairUtils_correct hchanges hstable [0, 1]
    (fun unit _ => ⟨fun _ _ _ _ => rfl, fun _ _ _ => rfl, fun _ _ _ => rfl⟩)
    fun unit _ => pairSolver_keeps unit

end SummarySolver

/-! Three analyses that are not covered. -/

/-- The callee is a `handle` whose body and handler both return. -/
def handleExprs : HirExprId → HirExpr
  | 0 => .call 1 []
  | 1 => .handle 2 3
  | 2 => .block 0
  | 3 => .block 1
  | _ => .literal

def handleRank : HirNode → ℕ
  | .expr 0 => 4
  | .expr 1 => 3
  | .expr _ => 2
  | .block _ => 1
  | .stmt _ => 0

def handleProgram : HirProgram where
  exprs := handleExprs
  stmts := fun _ => .return none
  blocks := fun block => ⟨[block], none⟩
  handlerArms := fun _ => ⟨0⟩
  acyclic := by
    refine ⟨handleRank, fun node child h => ?_⟩
    cases node with
    | expr e =>
      dsimp only [HirArenas.children] at h
      unfold handleExprs at h
      split at h <;> simp [HirExpr.children] at h
      · subst h
        decide
      · rcases h with rfl | rfl <;> decide
      · subst h
        decide
      · subst h
        decide
    | stmt s => cases h
    | block b =>
      simp [HirArenas.children, HirBlock.children] at h
      subst h
      exact Nat.zero_lt_one
  elseIf := by
    intro expr cond thenBlock next h
    unfold handleExprs at h
    split at h <;> cases h

def intoJoinedDomain (control : Control (Fin 3)) : Fin 3 :=
  [control.normalState, control.returnState, control.breakState, control.continueState,
    control.resumeState, control.finishState, control.errorState].foldl joinState
      AbstractDomain.bottom

/-- `handle_expr_control` as an analysis inherits it: what the parts leave with goes on. -/
def handleNormally (parts : HandleParts (Fin 3)) : Control (Fin 3) :=
  Control.normal (intoJoinedDomain (parts.body.join parts.handler))

def handleSolver : SummarySolver ℕ (Fin 3) (Fin 3) :=
  ⟨handleProgram, pairSemantics
    { HirAnalysisSemantics.idle with
      handleExprControl := fun _ _ parts => handleNormally parts }
    (fun _ => .direct 0) fun summary _ => summary, pairUtils⟩

/-- A summary that is stabilized once more is larger. -/
def stabilizeSolver : SummarySolver ℕ (Fin 3) (Fin 3) :=
  ⟨callProgram, pairSemantics HirAnalysisSemantics.idle (fun _ => .direct 0)
    fun summary current => if current = some level then top else summary, pairUtils⟩

/-- The target of the call is only known to the summary pass. -/
def phaseSolver : SummarySolver ℕ (Fin 3) (Fin 3) :=
  ⟨callProgram, pairSemantics HirAnalysisSemantics.idle
    (fun phase => if phase = .solveSummaries then .direct 0 else .dynamic)
    fun summary _ => summary, pairUtils⟩

/-- The solver ends without complaint, and the transfer of a unit leads above its summary. -/
def Stale (solver : SummarySolver ℕ (Fin 3) (Fin 3)) (unit : ℕ) : Prop :=
  (∀ context call callee state state', solver.semantics.callTarget context call callee state =
    solver.semantics.callTarget context call callee state') ∧
  (∀ component ∈ (solver.solve 20 [0, 1]).convergence, component.status = .converged) ∧
  (solver.solve 20 [0, 1]).diagnostics = [] ∧
  ∃ stored ∈ (solver.solve 20 [0, 1]).summaries.get unit, ¬ solver.unitSummary 20 unit
    ((solver.solve 20 [0, 1]).summaries, (solver.solve 20 [0, 1]).diagnostics) ≤ stored

namespace SummarySolver

theorem solve_not_postFixpoint :
    pairUtils.Correct ∧ Stale handleSolver 1 ∧ Stale stabilizeSolver 0 ∧ Stale phaseSolver 1 := by
  refine ⟨pairUtils_correct, ?_, ?_, ?_⟩
  · exact ⟨fun _ _ _ _ _ => rfl, by decide, by decide, AbstractDomain.bottom, by decide, by decide⟩
  · exact ⟨fun _ _ _ _ _ => rfl, by decide, by decide, level, by decide, by decide⟩
  · exact ⟨fun _ _ _ _ _ => rfl, by decide, by decide, AbstractDomain.bottom, by decide, by decide⟩

end SummarySolver
end EtasFrontend.Analysis
