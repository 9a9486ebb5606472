import EtasFrontend.Lib.Reach
import EtasFrontend.Project.ImportCycles
import Mathlib.Algebra.Group.Action.Defs
import Mathlib.Algebra.Order.BigOperators.Group.Finset

/-! The modules that an incremental check looks at again: those of changed sources, and whatever
imports them. -/
namespace EtasFrontend.Project
open Lib Relation

abbrev SourceId := ℕ

/-- Along the reverse edges. -/
def ImportGraph.importers (graph : ImportGraph) (m : ModuleId) : List ModuleId :=
  ((graph.reverseEdges.get m).getD []).filterMap fun i =>
    graph.edges[i]?.map ImportEdge.fromModule

/-- `affected_module_closure`. `bySource` has the module of each source. -/
def affectedModuleClosure (bySource : Map SourceId ModuleId) (index : ModuleIndex)
    (graph : ImportGraph) (order : ModuleTopoOrder) (changedSources : List SourceId) :
    Option (List ModuleId) :=
  let queue := changedSources.filterMap bySource.get
  -- a module that is seen for the first time adds at most one entry for each edge
  match reach graph.importers (queue.length + index.modules.length * graph.edges.length) queue with
  | (seen, []) => some (order.modules.filter (· ∈ seen))
  | (_, _ :: _) => none

/-- `ComputeAffectedModulesPass::run`, up to the ids of the modules. -/
def computeAffectedModules (incremental projectWideChange pipelinePlanChange : Bool)
    (bySource : Map SourceId ModuleId) (index : ModuleIndex) (graph : ImportGraph)
    (order : ModuleTopoOrder) (changedSources : List SourceId) : Option (List ModuleId) :=
  if incremental && !projectWideChange && !pipelinePlanChange then
    affectedModuleClosure bySource index graph order changedSources
  else some order.modules

section Importers
variable {index : ModuleIndex} {graph : ImportGraph} {m d : ModuleId}

theorem mem_importers (h : graph.Indexed) : m ∈ graph.importers d ↔ graph.Edge m d := by
  unfold ImportGraph.importers ImportGraph.Edge
  rw [h d, List.mem_filterMap]
  constructor
  · rintro ⟨i, hi, hm⟩
    obtain ⟨edge, hedge, rfl⟩ := Option.map_eq_some_iff.mp hm
    have hd := (List.mem_filter.mp hi).2
    rw [hedge, Option.bind_some, beq_iff_eq] at hd
    exact ⟨edge, List.mem_of_getElem? hedge, rfl, hd⟩
  · rintro ⟨edge, hmem, rfl, hd⟩
    obtain ⟨i, hi⟩ := List.getElem?_of_mem hmem
    have hlt : i < graph.edges.length := (List.getElem?_eq_some_iff.mp hi).choose
    refine ⟨i, List.mem_filter.mpr ⟨List.mem_range.mpr hlt, ?_⟩, by rw [hi]; rfl⟩
    rw [hi, Option.bind_some, hd]
    exact beq_self_eq_true _

theorem length_importers_le (h : graph.Indexed) (d : ModuleId) :
    (graph.importers d).length ≤ graph.edges.length := by
  unfold ImportGraph.importers
  rw [h d]
  calc _ ≤ _ := List.length_filterMap_le _ _
    _ ≤ (List.range graph.edges.length).length := List.length_filter_le _ _
    _ = graph.edges.length := List.length_range

theorem reach_importers (hw : graph.WellFormed index) (h : graph.Indexed) (queue : List ModuleId) :
    ∃ seen, reach graph.importers (queue.length + index.modules.length * graph.edges.length) queue =
      (seen, []) ∧ ∀ m, m ∈ seen ↔ ∃ c ∈ queue, ReflTransGen graph.Edge m c := by
  have hout : ∀ d ∉ Finset.range index.modules.length, graph.importers d = [] := by
    intro d hd
    refine List.eq_nil_iff_forall_not_mem.mpr fun m hm => ?_
    obtain ⟨edge, hmem, -, hd'⟩ := (mem_importers h).mp hm
    exact hd (Finset.mem_range.mpr ((hw edge hmem).2 d hd'))
  have hsum : pending graph.importers (Finset.range index.modules.length) [] ≤
      index.modules.length * graph.edges.length := by
    have hle := Finset.sum_le_card_nsmul {d ∈ Finset.range index.modules.length | d ∉ []} _ _
      fun d _ => length_importers_le h d
    have hcard : ({d ∈ Finset.range index.modules.length | d ∉ []} : Finset ℕ).card =
        index.modules.length := by simp
    rwa [hcard, smul_eq_mul] at hle
  have hswap : (fun d m => m ∈ graph.importers d) = Function.swap graph.Edge := by
    funext d m
    exact propext (mem_importers h)
  obtain ⟨seen, hreach, hseen⟩ := reach_iff hout (Nat.add_le_add_left hsum queue.length)
  refine ⟨seen, hreach, fun m => ?_⟩
  rw [hseen, hswap]
  exact exists_congr fun c => and_congr_right fun _ => reflTransGen_swap

end Importers

/-- What a check looks at: every module, or those from which imports lead to a changed module. -/
def Affected (incremental projectWideChange pipelinePlanChange : Bool)
    (bySource : Map SourceId ModuleId) (graph : ImportGraph) (changedSources : List SourceId)
    (m : ModuleId) : Prop :=
  (incremental && !projectWideChange && !pipelinePlanChange) = true →
    ∃ source ∈ changedSources, ∃ c, bySource.get source = some c ∧ ReflTransGen graph.Edge m c

/-- The pass lists the affected modules, each once and after the affected modules it imports, as
far as the order of all modules allows. -/
theorem computeAffectedModules_spec {index : ModuleIndex} {imports : ResolvedImports}
    (hi : ∀ i ∈ imports.imports, i.fromModule < index.modules.length)
    (hw : ∀ i ∈ imports.wildcardImports, i.fromModule < index.modules.length)
    (incremental projectWideChange pipelinePlanChange : Bool) (bySource : Map SourceId ModuleId)
    (changedSources : List SourceId) :
    ∃ order affected,
      computeModuleTopoOrder index (buildImportGraph index imports) = some order ∧
      computeAffectedModules incremental projectWideChange pipelinePlanChange bySource index
        (buildImportGraph index imports) order changedSources = some affected ∧
      affected.Nodup ∧
      (∀ m, m ∈ affected ↔ m < index.modules.length ∧
        Affected incremental projectWideChange pipelinePlanChange bySource
          (buildImportGraph index imports) changedSources m) ∧
      ∀ m ∈ affected, m ∉ order.cyclicModules → ∀ d ∈ affected,
        (buildImportGraph index imports).Imports m d →
          affected.idxOf d < affected.idxOf m := by
  have hwf := buildImportGraph_wellFormed hi hw
  have hindexed := buildImportGraph_indexed index imports
  generalize buildImportGraph index imports = graph at hwf hindexed ⊢
  obtain ⟨order, ordered, horder, hsplit, hnodup, hmem, -, htopo⟩ :=
    computeModuleTopoOrder_blocked hwf
  -- both answers keep some of the modules of the order
  have hanswer : ∃ p : ModuleId → Bool,
      computeAffectedModules incremental projectWideChange pipelinePlanChange bySource index graph
        order changedSources = some (order.modules.filter p) ∧
      ∀ m, p m = true ↔ Affected incremental projectWideChange pipelinePlanChange bySource graph
        changedSources m := by
    unfold computeAffectedModules Affected
    by_cases hpart : (incremental && !projectWideChange && !pipelinePlanChange) = true
    · obtain ⟨seen, hreach, hseen⟩ := reach_importers hwf hindexed
        (changedSources.filterMap bySource.get)
      refine ⟨fun m => decide (m ∈ seen), ?_, fun m => ?_⟩
      · rw [if_pos hpart, affectedModuleClosure]
        simp only [hreach]
      · rw [decide_eq_true_iff, hseen]
        constructor
        · rintro ⟨c, hc, hpath⟩ -
          obtain ⟨source, hsource, hget⟩ := List.mem_filterMap.mp hc
          exact ⟨source, hsource, c, hget, hpath⟩
        · intro h
          obtain ⟨source, hsource, c, hget, hpath⟩ := h hpart
          exact ⟨c, List.mem_filterMap.mpr ⟨source, hsource, hget⟩, hpath⟩
    · refine ⟨fun _ => true, ?_, fun m => ?_⟩
      · rw [if_neg hpart, List.filter_true]
      · exact iff_of_true rfl fun h => absurd h hpart
  obtain ⟨p, hrun, hp⟩ := hanswer
  refine ⟨order, _, horder, hrun, hnodup.filter _, fun m => ?_, ?_⟩
  · rw [List.mem_filter, hmem, hp]
  · intro m hm hmc d hd hmd
    have hordered := (List.nodup_append.mp (hsplit ▸ hnodup)).1
    rw [hsplit, List.filter_append] at hm hd ⊢
    have hmo : m ∈ ordered.filter p :=
      (List.mem_append.mp hm).resolve_right fun h => hmc (List.mem_filter.mp h).1
    have hpd : p d = true := by
      rcases List.mem_append.mp hd with hd | hd
      · exact (List.mem_filter.mp hd).2
      · exact (List.mem_filter.mp hd).2
    have hfiltered := htopo.filter p
    rw [List.idxOf_append_of_mem hmo,
      List.idxOf_append_of_mem (hfiltered.mem_of_rel hmo ⟨hmd, hpd⟩)]
    exact hfiltered.idxOf_lt (hordered.filter _) hmo ⟨hmd, hpd⟩

/-- Only the source of `a` has changed, and `b` imports `a`. -/
theorem computeAffectedModules_two_imports : ∃ order affected,
    computeModuleTopoOrder twoModules (buildImportGraph twoModules twoImports) = some order ∧
      computeAffectedModules true false false (Map.ofList [(7, 0)]) twoModules
        (buildImportGraph twoModules twoImports) order [7] = some affected ∧ affected.Nodup := by
  obtain ⟨order, affected, horder, hrun, hnodup, -⟩ :=
    @computeAffectedModules_spec twoModules twoImports (by decide) (by decide) true false false
      (Map.ofList [(7, 0)]) [7]
  exact ⟨order, affected, horder, hrun, hnodup⟩

end EtasFrontend.Project
