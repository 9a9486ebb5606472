import EtasFrontend.Effects.Registry

/-! Building the registry: the standard library, then the metadata of dependencies, then the effects
declared in source. -/
namespace EtasFrontend.Effects
open Lib EtasFrontend.Types

structure StdEffect where
  name : String
  core : Bool
  stableId : Option ℕ
  runtimeRequirement : Option RuntimeRequirementReason
  parents : List String

structure StdEffectAction where
  qualifiedPath : List String
  owner : String
  name : String
  stableId : Option ℕ
  effectArgs : List EffectActionArgKind
  runtimeRequirement : Option RuntimeRequirementReason

structure StdRegistry where
  effects : List StdEffect
  actions : List StdEffectAction

structure DependencyEffectTag where
  path : List String
  runtimeRequirement : Option RuntimeRequirementReason

structure DependencyEffectAction where
  path : List String
  effectArgs : List EffectActionArgKind
  selectorParamNames : List String
  selectorDefaults : List (Option EffectArgRef)

structure DependencyEffectExtension where
  child : List String
  parent : List String

structure DependencySourceEffectBinding where
  symbol : SymbolId
  path : List String

structure DependencyEffectMetadata where
  tags : List DependencyEffectTag
  actions : List DependencyEffectAction
  extensions : List DependencyEffectExtension
  sourceBindings : List DependencySourceEffectBinding

/-- Where the path after `extends` leads: a symbol, with its path when it is an import alias. -/
inductive ResolveResult where
  | resolved (symbol : SymbolId) (importAlias : Option (List String))
  | unresolved

structure HirEffectDecl where
  symbol : SymbolId
  name : Option String
  moduleName : Option String
  parent : Option ResolveResult

def firstDynamicTag : ℕ := 1024

def qualify (path : List String) : String := ".".intercalate path

namespace EffectRegistry

def tagByName (registry : EffectRegistry) (name : String) : Option EffectTagId :=
  registry.names.get name

def tagBySymbol (registry : EffectRegistry) (symbol : SymbolId) : Option EffectTagId :=
  registry.symbolTags.get symbol

def tagByPath (registry : EffectRegistry) (path : List String) : Option EffectTagId :=
  (registry.tagByName (qualify path)).or
    (match path with
    | [name] => registry.tagByName name
    | _ => none)

def nextDynamicTag (registry : EffectRegistry) : ℕ :=
  max (registry.tags.keys.max?.getD (firstDynamicTag - 1) + 1) firstDynamicTag

def nextDynamicAction (registry : EffectRegistry) : ℕ :=
  max ((registry.standardActions.keys ++ registry.dependencyActions.keys ++
    registry.actions.values.map EffectActionSig.id).max?.getD (firstDynamicTag - 1) + 1)
    firstDynamicTag

def registerStandardEffect (registry : EffectRegistry) (effect : StdEffect) : EffectRegistry :=
  if effect.core && (registry.tagByName effect.name).isSome then registry
  else
    match effect.stableId, effect.runtimeRequirement with
    | some id, some requirement =>
      let registry := registry.registerTag id effect.name (some requirement)
      let registry := { registry with
        names := (registry.names.insert effect.name id).insert ("std.effects." ++ effect.name) id }
      effect.parents.foldl (fun registry parent =>
        match registry.tagByName parent with
        | some parent => registry.addExtension id parent
        | none => registry) registry
    | _, _ => registry

def registerStandardActionDecl (registry : EffectRegistry) (action : StdEffectAction) :
    EffectRegistry :=
  match action.stableId, registry.tagByName action.owner with
  | some id, some owner =>
    let requirement := action.runtimeRequirement.or (registry.runtimeRequirementReason owner)
    let registry := registry.registerStandardAction ⟨id, owner, action.name, action.effectArgs⟩
      requirement
    { registry with
      actionNames := registry.actionNames.insert (qualify action.qualifiedPath) ⟨owner, id⟩ }
  | _, _ => registry

def withStandardEffectsFrom (std : StdRegistry) : EffectRegistry :=
  let core := [CoreEffect.agentic, .network, .fileIo, .command, .memory, .secret, .time, .human,
    .error].foldl registerCore empty
  std.actions.foldl registerStandardActionDecl (std.effects.foldl registerStandardEffect core)

/-! The metadata of dependencies. -/

def registerDependencyTag (registry : EffectRegistry) (tag : DependencyEffectTag) :
    Except String EffectRegistry :=
  match tag.path.getLast? with
  | none => .error "dependency effect tag path must not be empty"
  | some name =>
    match registry.tagByName (qualify tag.path) with
    | some _ => .ok registry
    | none =>
      let id := registry.nextDynamicTag
      .ok { registry.registerTag id name tag.runtimeRequirement with
        names := registry.names.insert (qualify tag.path) id
        dependencyTagPaths := registry.dependencyTagPaths.insert id tag.path }

def registerDependencyActionDecl (registry : EffectRegistry) (action : DependencyEffectAction) :
    Except String EffectRegistry :=
  match action.path.reverse with
  | name :: ownerName :: outer =>
    if action.effectArgs.length ≠ action.selectorParamNames.length ∨
        action.effectArgs.length ≠ action.selectorDefaults.length then
      .error ("dependency action `" ++ qualify action.path ++
        "` selector metadata lengths do not match")
    else
      match registry.tagByPath action.path.dropLast with
      | none => .error ("dependency action `" ++ qualify action.path ++
          "` references unknown effect owner `" ++ qualify action.path.dropLast ++ "`")
      | some owner =>
        if (registry.actionNames.get (qualify action.path)).any fun existing =>
            existing.tag == owner then
          .ok registry
        else
          let id := registry.nextDynamicAction
          let registry := registry.registerDependencyAction ⟨id, owner, name, action.effectArgs⟩
          let names := registry.actionNames.insert (qualify action.path) ⟨owner, id⟩
          .ok { registry with
            actionNames :=
              if outer.isEmpty then names
              else names.orInsert (ownerName ++ "." ++ name) ⟨owner, id⟩ }
  | _ => .error ("dependency action path `" ++ qualify action.path ++
      "` must contain an effect and action name")

def registerDependencyExtension (registry : EffectRegistry)
    (extension : DependencyEffectExtension) : EffectRegistry :=
  match registry.tagByPath extension.child, registry.tagByPath extension.parent with
  | some child, some parent => registry.addExtension child parent
  | _, _ => { registry with
      unresolvedDependencyExtensions := registry.unresolvedDependencyExtensions ++
        [⟨extension.child, extension.parent⟩] }

def registerDependencyMetadata (registry : EffectRegistry) (metadata : DependencyEffectMetadata) :
    Except String EffectRegistry := do
  let registry ← metadata.tags.foldlM registerDependencyTag registry
  let registry ← metadata.actions.foldlM registerDependencyActionDecl registry
  return metadata.extensions.foldl registerDependencyExtension registry

/-! The effects declared in source. -/

/-- `register_effect_names`: the tag and the names it is found under. -/
def registerHirNames (registry : EffectRegistry) (effect : HirEffectDecl) (id : EffectTagId) :
    EffectRegistry :=
  match effect.name with
  | none => registry
  | some name =>
    let registry := registry.registerEffectNames id name
    let names := registry.names.insert name id
    { registry with
      names :=
        match effect.moduleName with
        | none => names
        | some moduleName => names.insert (moduleName ++ "." ++ name) id }

def bindSymbol (registry : EffectRegistry) (effect : HirEffectDecl) (id : EffectTagId) :
    EffectRegistry :=
  { registry with symbolTags := registry.symbolTags.insert effect.symbol id }.registerHirNames
    effect id

def canSourceEffectBindStandardTag (registry : EffectRegistry) (name : String)
    (id : EffectTagId) : Bool :=
  match registry.tags.get id with
  | none => false
  | some tag => tag.core.isSome || name == "Approval" || name == "Console"

structure HirEffectState where
  registry : EffectRegistry
  bindings : Map SymbolId (List String)
  nextUserTag : ℕ

def registerHirEffect (s : HirEffectState) (effect : HirEffectDecl) :
    Except String HirEffectState :=
  match s.registry.tagBySymbol effect.symbol with
  | some existing => .ok { s with registry := s.registry.registerHirNames effect existing }
  | none =>
    match effect.name with
    | none => .ok s
    | some name =>
      match s.bindings.get effect.symbol with
      | some path =>
        match s.registry.tagByPath path with
        | none => .error "source effect binding has no matching dependency tag"
        | some id =>
          if s.registry.dependencyTagPaths.get id = some path then
            .ok { s with
              registry := s.registry.bindSymbol effect id
              bindings := s.bindings.remove effect.symbol }
          else .error "source effect binding does not identify a dependency tag"
      | none =>
        match (s.registry.tagByName name).filter
            (s.registry.canSourceEffectBindStandardTag name) with
        | some existing => .ok { s with registry := s.registry.bindSymbol effect existing }
        | none =>
          .ok { s with
            registry := s.registry.bindSymbol effect s.nextUserTag
            nextUserTag := s.nextUserTag + 1 }

def sourceBindings (bindings : List DependencySourceEffectBinding) :
    Except String (Map SymbolId (List String)) :=
  bindings.foldlM (fun found binding =>
    if (found.get binding.symbol).isSome then
      .error "duplicate dependency source effect binding"
    else .ok (found.insert binding.symbol binding.path)) ∅

def registerHirEffects (registry : EffectRegistry) (hir : List HirEffectDecl)
    (metadata : DependencyEffectMetadata) : Except String EffectRegistry := do
  let bindings ← sourceBindings metadata.sourceBindings
  let s ← hir.foldlM registerHirEffect ⟨registry, bindings, registry.nextDynamicTag⟩
  if s.bindings.toList.isEmpty then return s.registry
  else throw "source effect binding has no HIR effect declaration"

def resolveEffectRef (registry : EffectRegistry) : ResolveResult → Option EffectTagId
  | .resolved symbol importAlias =>
    (registry.tagBySymbol symbol).or (importAlias.bind fun path => registry.tagByName (qualify path))
  | .unresolved => none

def registerHirEffectExtension (registry : EffectRegistry) (effect : HirEffectDecl) :
    EffectRegistry :=
  match registry.tagBySymbol effect.symbol, effect.parent.bind registry.resolveEffectRef with
  | some child, some parent => registry.addExtension child parent
  | _, _ => registry

/-- `from_hir_types_dependencies_and_std`, up to the tags and their requirements. -/
def fromHirDependenciesAndStd (hir : List HirEffectDecl) (metadata : DependencyEffectMetadata)
    (std : StdRegistry) : Except String EffectRegistry := do
  let registry ← (withStandardEffectsFrom std).registerDependencyMetadata metadata
  let registry ← registry.registerHirEffects hir metadata
  return hir.foldl registerHirEffectExtension registry

end EffectRegistry
end EtasFrontend.Effects
