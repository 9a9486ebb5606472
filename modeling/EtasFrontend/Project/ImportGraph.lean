import EtasFrontend.Lib.Graph
import EtasFrontend.Lib.Map

/-! The import graph of a project: one edge for each source module an import brings in. -/
namespace EtasFrontend.Project
open Lib

abbrev ModuleId := ℕ
abbrev ModuleKey := ℕ

structure ModulePath where
  segments : List String

structure ModuleInfo where
  path : ModulePath

/-- The modules of the project. A module's id is its position. -/
structure ModuleIndex where
  modules : List ModuleInfo

inductive ResolvedModuleTarget where
  | source (key : ModuleKey) (id : ModuleId)
  | std (key : ModuleKey)
  | external (key : ModuleKey)

def ResolvedModuleTarget.key : ResolvedModuleTarget → ModuleKey
  | .source key _ => key
  | .std key => key
  | .external key => key

inductive ImportTarget where
  | toModule (target : ResolvedModuleTarget)
  | sourceItem (id : ModuleId) (name : String)
  | stdItem (name : String)
  | externalItem (name : String)

structure ResolvedImport where
  fromModule : ModuleId
  target : ImportTarget

structure ResolvedWildcardImport where
  fromModule : ModuleId
  targetModule : ResolvedModuleTarget
  /-- The exported names in their order, with what they stand for. -/
  targets : List (String × ImportTarget)

structure ResolvedImports where
  imports : List ResolvedImport
  wildcardImports : List ResolvedWildcardImport
  moduleMembers : Map ModuleKey (List (String × ImportTarget))

structure ImportEdge where
  fromModule : ModuleId
  candidate : ModulePath
  resolved : Option ModuleId

structure ImportGraph where
  edges : List ImportEdge
  reverseEdges : Map ModuleId (List ℕ)

def ImportGraph.empty : ImportGraph := ⟨[], ∅⟩

def sourceModulePath (modules : ModuleIndex) (id : ModuleId) : Option ModulePath :=
  modules.modules[id]?.map ModuleInfo.path

def sourceModuleEdgeTarget (modules : ModuleIndex) :
    ResolvedModuleTarget → Option (ModulePath × ModuleId)
  | .source _ id => (sourceModulePath modules id).map fun path => (path, id)
  | .std _ => none
  | .external _ => none

def sourceEdgeTarget (modules : ModuleIndex) : ImportTarget → Option (ModulePath × ModuleId)
  | .toModule target => sourceModuleEdgeTarget modules target
  | .sourceItem id _ => (sourceModulePath modules id).map fun path => (path, id)
  | .stdItem _ => none
  | .externalItem _ => none

def pushSourceEdge (graph : ImportGraph) (fromModule : ModuleId) (candidate : ModulePath)
    (resolved : ModuleId) : ImportGraph :=
  { edges := graph.edges ++ [⟨fromModule, candidate, some resolved⟩]
    reverseEdges := graph.reverseEdges.insert resolved
      ((graph.reverseEdges.get resolved).getD [] ++ [graph.edges.length]) }

/-- The edges of one import. Only targets of the same import are compared with each other. -/
def pushImport (modules : ModuleIndex) (graph : ImportGraph) (fromModule : ModuleId)
    (targets : List ImportTarget) : ImportGraph :=
  (targets.foldl (fun (s : ImportGraph × List ModuleId) target =>
    match sourceEdgeTarget modules target with
    | some (candidate, resolved) =>
      if s.2.contains resolved then s
      else (pushSourceEdge s.1 fromModule candidate resolved, resolved :: s.2)
    | none => s) (graph, [])).1

def importTargets (imports : ResolvedImports) (target : ImportTarget) : List ImportTarget :=
  match target with
  | .toModule m => target :: ((imports.moduleMembers.get m.key).getD []).map Prod.snd
  | _ => [target]

/-- `BuildImportGraphPass::run`. -/
def buildImportGraph (modules : ModuleIndex) (imports : ResolvedImports) : ImportGraph :=
  let graph := imports.imports.foldl (fun graph i =>
    pushImport modules graph i.fromModule (importTargets imports i.target)) ImportGraph.empty
  imports.wildcardImports.foldl (fun graph i =>
    pushImport modules graph i.fromModule
      (.toModule i.targetModule :: i.targets.map Prod.snd)) graph

/-- Every edge joins two modules of the index. -/
def ImportGraph.WellFormed (graph : ImportGraph) (modules : ModuleIndex) : Prop :=
  ∀ e ∈ graph.edges, e.fromModule < modules.modules.length ∧
    ∀ d, e.resolved = some d → d < modules.modules.length

variable {modules : ModuleIndex}

theorem sourceModulePath_bound {id : ModuleId} {path : ModulePath}
    (h : sourceModulePath modules id = some path) : id < modules.modules.length := by
  simp only [sourceModulePath, Option.map_eq_some_iff] at h
  obtain ⟨info, hinfo, -⟩ := h
  exact (List.getElem?_eq_some_iff.mp hinfo).choose

theorem sourceEdgeTarget_bound {target : ImportTarget} {path : ModulePath} {id : ModuleId}
    (h : sourceEdgeTarget modules target = some (path, id)) :
    id < modules.modules.length := by
  have hmap : ∀ i, (sourceModulePath modules i).map (fun path => (path, i)) = some (path, id) →
      id < modules.modules.length := by
    intro i hi
    obtain ⟨p, hp, heq⟩ := Option.map_eq_some_iff.mp hi
    obtain rfl : i = id := congrArg Prod.snd heq
    exact sourceModulePath_bound hp
  cases target with
  | toModule target =>
    cases target with
    | source key i => exact hmap i h
    | std key => cases h
    | external key => cases h
  | sourceItem i name => exact hmap i h
  | stdItem name => cases h
  | externalItem name => cases h

variable {graph : ImportGraph}

theorem pushSourceEdge_wellFormed (hg : graph.WellFormed modules)
    {m d : ModuleId} (hm : m < modules.modules.length) (hd : d < modules.modules.length)
    (path : ModulePath) :
    (pushSourceEdge graph m path d).WellFormed modules := by
  intro e he
  rcases List.mem_append.mp he with he | he
  · exact hg e he
  · rw [List.mem_singleton.mp he]
    refine ⟨hm, fun d' hd' => ?_⟩
    obtain rfl : d = d' := Option.some.inj hd'
    exact hd

variable {p : ImportGraph → Prop}

/-- What an edge between two modules of the index keeps, the edges of an import keep. -/
theorem pushImport_keeps {m : ModuleId}
    (hpush : ∀ graph path, ∀ d < modules.modules.length, p graph → p (pushSourceEdge graph m path d))
    (hg : p graph) (targets : List ImportTarget) :
    p (pushImport modules graph m targets) := by
  unfold pushImport
  generalize ([] : List ModuleId) = seen
  induction targets generalizing graph seen with
  | nil => exact hg
  | cons target targets ih =>
    rw [List.foldl_cons]
    cases ht : sourceEdgeTarget modules target with
    | none => exact ih hg seen
    | some edge =>
      dsimp only
      split_ifs with hs
      · exact ih hg seen
      · exact ih (hpush graph _ _ (sourceEdgeTarget_bound ht) hg) _

private theorem foldl_pushImport_keeps {ι : Type} {origin : ι → ModuleId}
    {targets : ι → List ImportTarget} {l : List ι}
    (hpush : ∀ i ∈ l, ∀ graph path, ∀ d < modules.modules.length, p graph →
      p (pushSourceEdge graph (origin i) path d)) (hg : p graph) :
    p (l.foldl (fun graph i => pushImport modules graph (origin i) (targets i)) graph) := by
  induction l generalizing graph with
  | nil => exact hg
  | cons i l ih =>
    have hi := pushImport_keeps (hpush i List.mem_cons_self) hg (targets i)
    exact ih (fun j hj => hpush j (List.mem_cons_of_mem _ hj)) hi

/-- What an edge from a module with imports keeps, the whole graph has. -/
theorem buildImportGraph_keeps {q : ModuleId → Prop}
    {imports : ResolvedImports} (hi : ∀ i ∈ imports.imports, q i.fromModule)
    (hw : ∀ i ∈ imports.wildcardImports, q i.fromModule)
    (hpush : ∀ graph m path, ∀ d < modules.modules.length, q m → p graph →
      p (pushSourceEdge graph m path d)) (hempty : p .empty) :
    p (buildImportGraph modules imports) := by
  refine foldl_pushImport_keeps (fun i hmem graph path d hd => ?_)
    (foldl_pushImport_keeps (fun i hmem graph path d hd => ?_) hempty)
  · exact hpush graph _ path d hd (hw i hmem)
  · exact hpush graph _ path d hd (hi i hmem)

theorem buildImportGraph_wellFormed {imports : ResolvedImports}
    (hi : ∀ i ∈ imports.imports, i.fromModule < modules.modules.length)
    (hw : ∀ i ∈ imports.wildcardImports, i.fromModule < modules.modules.length) :
    (buildImportGraph modules imports).WellFormed modules := by
  have hempty : ImportGraph.empty.WellFormed modules := by simp [ImportGraph.WellFormed, ImportGraph.empty]
  exact buildImportGraph_keeps (p := (ImportGraph.WellFormed · modules)) hi hw
    (fun _ _ path _ hd hm hg => pushSourceEdge_wellFormed hg hm hd path) hempty

/-- The reverse edges of a module are the positions of the edges to it. -/
def ImportGraph.Indexed (graph : ImportGraph) : Prop :=
  ∀ d, (graph.reverseEdges.get d).getD [] = (List.range graph.edges.length).filter fun i =>
    graph.edges[i]?.bind ImportEdge.resolved == some d

theorem pushSourceEdge_indexed (hg : graph.Indexed) (m : ModuleId)
    (path : ModulePath) (d : ModuleId) : (pushSourceEdge graph m path d).Indexed := by
  intro target
  have hold : ((List.range graph.edges.length).filter fun i =>
      (graph.edges ++ [⟨m, path, some d⟩])[i]?.bind ImportEdge.resolved == some target) =
        (graph.reverseEdges.get target).getD [] := by
    rw [hg target]
    refine List.filter_congr fun i hi => ?_
    rw [List.getElem?_append_left (List.mem_range.mp hi)]
  simp only [pushSourceEdge, Map.get_insert, List.length_append, List.length_singleton,
    List.range_succ, List.filter_append, hold]
  by_cases heq : target = d
  · subst heq
    simp
  · simp [heq, Ne.symm heq]

theorem buildImportGraph_indexed (modules : ModuleIndex) (imports : ResolvedImports) :
    (buildImportGraph modules imports).Indexed := by
  have hempty : ImportGraph.empty.Indexed := fun _ => rfl
  exact buildImportGraph_keeps (q := fun _ => True) (fun _ _ => trivial) (fun _ _ => trivial)
    (fun _ m path d _ _ hg => pushSourceEdge_indexed hg m path d) hempty

end EtasFrontend.Project
