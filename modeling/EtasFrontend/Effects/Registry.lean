import EtasFrontend.Lib.Map
import EtasFrontend.Lib.Search
import EtasFrontend.Types.Ty

/-! The registry of effects: tags, the extension graph between them, the signatures of actions and
the declared memory places. -/
namespace EtasFrontend.Effects
open Lib EtasFrontend.Types Relation

abbrev EffectTagId := ℕ
abbrev EffectActionId := ℕ
abbrev EffectVarId := ℕ

inductive CoreEffect where
  | agentic | network | fileIo | command | memory | secret | time | human | error
  deriving DecidableEq

/-- The tag each core effect is registered under. -/
def CoreEffect.tag : CoreEffect → EffectTagId
  | .agentic => 0 | .network => 1 | .fileIo => 2 | .command => 3 | .memory => 4
  | .secret => 6 | .time => 7 | .error => 8 | .human => 10

def CoreEffect.name : CoreEffect → String
  | .agentic => "Agentic" | .network => "Network" | .fileIo => "FileIO" | .command => "Command"
  | .memory => "Memory" | .secret => "Secret" | .time => "Time" | .human => "Human"
  | .error => "Error"

def errorTag : EffectTagId := 8

inductive RuntimeRequirementReason where
  | agentic | toolCall | hostAuthority | durableMemory | approval | checkpoint | time | network
  | tcp | stream | tls | browser | console | fileIo | command | secretAccess | compiler
  | runtimeHandler | taskScheduler
  deriving DecidableEq

def runtimeRequirementForCore : CoreEffect → Option RuntimeRequirementReason
  | .agentic => some .agentic
  | .network => some .network
  | .fileIo => some .fileIo
  | .command => some .command
  | .memory => some .durableMemory
  | .secret => some .secretAccess
  | .time => some .time
  | .human => none
  | .error => none

structure EffectTag where
  id : EffectTagId
  name : String
  core : Option CoreEffect
  runtimeRequirement : Option RuntimeRequirementReason

structure ActionRef where
  tag : EffectTagId
  action : EffectActionId
  deriving DecidableEq

structure ActionInstanceRef where
  action : ActionRef
  args : List EffectArgRef
  deriving DecidableEq

inductive EffectActionArgKind where
  | type
  | memoryPlace
  | staticResourcePath (ty : String)
  | stringPattern
  deriving DecidableEq

structure EffectActionSig where
  id : EffectActionId
  owner : EffectTagId
  name : String
  effectArgs : List EffectActionArgKind

structure ExtensionGraph where
  parents : Map EffectTagId (List EffectTagId)

namespace ExtensionGraph

def empty : ExtensionGraph := ⟨∅⟩

def parentsOf (graph : ExtensionGraph) (tag : EffectTagId) : List EffectTagId :=
  (graph.parents.get tag).getD []

def addExtension (graph : ExtensionGraph) (child parent : EffectTagId) : ExtensionGraph :=
  let parents := graph.parentsOf child
  ⟨graph.parents.insert child
    (if parent ∈ parents then parents else parents.orderedInsert (· ≤ ·) parent)⟩

theorem mem_parentsOf_addExtension (graph : ExtensionGraph) (c p c' p' : EffectTagId) :
    p' ∈ (graph.addExtension c p).parentsOf c' ↔
      p' ∈ graph.parentsOf c' ∨ (c' = c ∧ p' = p) := by
  rw [addExtension, parentsOf, Map.get_insert]
  by_cases hc : c' = c
  · subst hc
    rw [if_pos rfl, Option.getD_some]
    split_ifs with hp
    · constructor
      · exact Or.inl
      · rintro (h | ⟨-, rfl⟩)
        · exact h
        · exact hp
    · simp [or_comm]
  · simp [hc, parentsOf]

/-- No tag is expanded twice, so the loop takes at most one step for each edge and one more. -/
def edgeBound (graph : ExtensionGraph) : ℕ :=
  pending graph.parentsOf graph.parents.keys.toFinset [] + 2

def extendsTag (graph : ExtensionGraph) (child ancestor : EffectTagId) : Bool :=
  child == ancestor || search graph.parentsOf ancestor graph.edgeBound [child] []

theorem extendsTag_iff (graph : ExtensionGraph) (child ancestor : EffectTagId) :
    graph.extendsTag child ancestor = true ↔
      ReflTransGen (fun a b => b ∈ graph.parentsOf a) child ancestor := by
  have hnodes : ∀ a ∉ graph.parents.keys.toFinset, graph.parentsOf a = [] := by
    intro a ha
    have hnone : graph.parents.get a = none := by
      rw [List.mem_toFinset] at ha
      exact AList.lookup_eq_none.mpr ha
    rw [parentsOf, hnone]
    rfl
  rw [extendsTag, Bool.or_eq_true, beq_iff_eq,
    search_iff hnodes (by unfold edgeBound; omega), reflTransGen_iff_eq_or_transGen, eq_comm]

end ExtensionGraph

structure MemoryPlaceDecl where
  id : TypeId
  segments : List String

/-- Every tag is filed under its own id, a core effect under the tag kept for it. -/
def TagsFiled (tags : Map EffectTagId EffectTag) : Prop :=
  ∀ id tag, tags.get id = some tag → tag.id = id ∧ ∀ core, tag.core = some core → id = core.tag

structure UnresolvedDependencyEffectExtension where
  child : List String
  parent : List String

structure EffectRegistry where
  tags : Map EffectTagId EffectTag
  filed : TagsFiled tags
  names : Map String EffectTagId
  symbolTags : Map SymbolId EffectTagId
  actions : Map SymbolId EffectActionSig
  dependencyActions : Map EffectActionId EffectActionSig
  standardActions : Map EffectActionId EffectActionSig
  dependencyTagPaths : Map EffectTagId (List String)
  actionNames : Map String ActionRef
  extensions : ExtensionGraph
  memoryPlaces : Map TypeId MemoryPlaceDecl
  unresolvedDependencyExtensions : List UnresolvedDependencyEffectExtension

theorem TagsFiled.insert {tags : Map EffectTagId EffectTag} (h : TagsFiled tags) (tag : EffectTag)
    (hc : ∀ core, tag.core = some core → tag.id = core.tag) :
    TagsFiled (tags.insert tag.id tag) := by
  intro id t ht
  rw [Map.get_insert] at ht
  split_ifs at ht with he
  · cases ht
    exact ⟨he.symm, fun core hcore => he.trans (hc core hcore)⟩
  · exact h id t ht

theorem TagsFiled.modify {tags : Map EffectTagId EffectTag} (h : TagsFiled tags) {id : EffectTagId}
    {tag : EffectTag} (ht : tags.get id = some tag)
    (requirement : Option RuntimeRequirementReason) :
    TagsFiled (tags.insert id { tag with runtimeRequirement := requirement }) := by
  intro id' t ht'
  rw [Map.get_insert] at ht'
  split_ifs at ht' with he
  · cases ht'
    exact he ▸ h id tag ht
  · exact h id' t ht'

namespace EffectRegistry

def empty : EffectRegistry where
  tags := ∅
  filed := fun _ _ h => by cases h
  names := ∅
  symbolTags := ∅
  actions := ∅
  dependencyActions := ∅
  standardActions := ∅
  dependencyTagPaths := ∅
  actionNames := ∅
  extensions := .empty
  memoryPlaces := ∅
  unresolvedDependencyExtensions := []

def runtimeRequirementReason (registry : EffectRegistry) (tag : EffectTagId) :
    Option RuntimeRequirementReason :=
  (registry.tags.get tag).bind EffectTag.runtimeRequirement

/-- A requirement for a registered tag that has none. -/
def giveRequirement (registry : EffectRegistry) (id : EffectTagId)
    (requirement : Option RuntimeRequirementReason) : EffectRegistry :=
  match h : registry.tags.get id with
  | none => registry
  | some tag => { registry with
      tags := registry.tags.insert id
        { tag with runtimeRequirement := tag.runtimeRequirement.or requirement }
      filed := registry.filed.modify h _ }

def registerCore (registry : EffectRegistry) (core : CoreEffect) : EffectRegistry :=
  let tag : EffectTag := ⟨core.tag, core.name, some core, runtimeRequirementForCore core⟩
  { registry with
    tags := registry.tags.insert core.tag tag
    filed := registry.filed.insert tag fun _ h => by cases h; rfl
    names := ((registry.names.insert core.name core.tag).insert
      ("std.effects." ++ core.name) core.tag).insert ("std.runtime.effects." ++ core.name) core.tag }

/-- A tag of the standard library or of a dependency. -/
def registerTag (registry : EffectRegistry) (id : EffectTagId) (name : String)
    (requirement : Option RuntimeRequirementReason := none) : EffectRegistry :=
  { registry with
    tags := registry.tags.insert id ⟨id, name, none, requirement⟩
    filed := registry.filed.insert ⟨id, name, none, requirement⟩ fun _ h => by cases h }

/-- A source declaration keeps the tag it is bound to. -/
def registerEffectNames (registry : EffectRegistry) (id : EffectTagId) (name : String) :
    EffectRegistry :=
  match registry.tags.get id with
  | some _ => registry
  | none => registry.registerTag id name

/-- The child takes over what the parent requires now, unless it has a requirement. -/
def addExtension (registry : EffectRegistry) (child parent : EffectTagId) : EffectRegistry :=
  { registry with extensions := registry.extensions.addExtension child parent }.giveRequirement
    child (registry.runtimeRequirementReason parent)

/-- The owner of an action takes over the requirement of the action, unless it has one. -/
def registerStandardAction (registry : EffectRegistry) (signature : EffectActionSig)
    (requirement : Option RuntimeRequirementReason := none) : EffectRegistry :=
  match registry.tags.get signature.owner with
  | none => registry
  | some _ => { registry with
      standardActions := registry.standardActions.insert signature.id signature }.giveRequirement
    signature.owner requirement

def registerDependencyAction (registry : EffectRegistry) (signature : EffectActionSig) :
    EffectRegistry :=
  { registry with
    dependencyActions := registry.dependencyActions.insert signature.id signature }

def registerAction (registry : EffectRegistry) (symbol : SymbolId) (signature : EffectActionSig) :
    EffectRegistry :=
  { registry with actions := registry.actions.insert symbol signature }

def registerMemoryPlaces (registry : EffectRegistry) (types : List (TypeId × Ty)) :
    EffectRegistry :=
  { registry with
    memoryPlaces := types.foldl (fun places (id, ty) =>
      match ty with
      | .memoryPlace place => places.insert id ⟨id, place.segments⟩
      | _ => places) registry.memoryPlaces }

def tagByCore (registry : EffectRegistry) (core : CoreEffect) : Option EffectTagId :=
  (registry.tags.values.find? fun tag => tag.core == some core).map EffectTag.id

def tagName (registry : EffectRegistry) (tag : EffectTagId) : Option String :=
  (registry.tags.get tag).map EffectTag.name

def tagExtends (registry : EffectRegistry) (child ancestor : EffectTagId) : Bool :=
  registry.extensions.extendsTag child ancestor

def localActionSignature (registry : EffectRegistry) (action : ActionRef) :
    Option EffectActionSig :=
  registry.actions.values.find? fun signature =>
    signature.owner == action.tag && signature.id == action.action

def dependencyActionSignature (registry : EffectRegistry) (action : ActionRef) :
    Option EffectActionSig :=
  (registry.dependencyActions.get action.action).filter fun signature =>
    signature.owner == action.tag

def actionSignature (registry : EffectRegistry) (action : ActionRef) : Option EffectActionSig :=
  (((registry.standardActions.get action.action).filter fun signature =>
    signature.owner == action.tag).or (registry.localActionSignature action)).or
    (registry.dependencyActionSignature action)

def memoryPlace (registry : EffectRegistry) (place : TypeId) : Option MemoryPlaceDecl :=
  registry.memoryPlaces.get place

def memoryPlaceContains (registry : EffectRegistry) (parent child : TypeId) : Bool :=
  match registry.memoryPlace parent, registry.memoryPlace child with
  | some parent, some child => parent.segments.isPrefixOf child.segments
  | _, _ => false

def isMemoryTag (registry : EffectRegistry) (tag : EffectTagId) : Bool :=
  ((registry.tags.get tag).bind EffectTag.core) == some .memory

theorem tagByCore_eq {registry : EffectRegistry} {core : CoreEffect} {tag : EffectTagId}
    (h : registry.tagByCore core = some tag) : tag = core.tag := by
  obtain ⟨t, hf, rfl⟩ := Option.map_eq_some_iff.mp h
  obtain ⟨id, hid⟩ := Map.exists_get_of_mem_values (List.mem_of_find?_eq_some hf)
  obtain ⟨heq, hcore⟩ := registry.filed id t hid
  rw [heq, hcore core (by simpa using List.find?_some hf)]

end EffectRegistry
end EtasFrontend.Effects
