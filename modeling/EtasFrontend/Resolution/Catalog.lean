import EtasFrontend.Hir.Program

/-! The modules of a project, what they import, and the catalog of what they export. -/
namespace EtasFrontend.Resolution
open Lib Hir

abbrev ModuleId := ℕ
abbrev ModulePartId := ℕ
abbrev ModuleKey := ℕ
abbrev AstItemRef := ℕ
abbrev StdModuleId := ℕ
abbrev StdSymbolId := ℕ
abbrev ExternalPackageId := ℕ
abbrev ExternalModuleId := ℕ
abbrev ExternalSymbolId := ℕ

abbrev ModulePath := List String

inductive Visibility where
  | «private» | «public»
  deriving DecidableEq

/-! Import declarations. -/

structure ImportItem where
  name : String
  rename : Option String

inductive ImportTree where
  | single (path : ModulePath) (rename : Option String)
  | group (path : ModulePath) (items : List ImportItem)
  | wildcard (path : ModulePath) (span : Span)
  | error

structure ImportDecl where
  visibility : Visibility
  tree : ImportTree

structure ModulePart where
  module : ModuleId
  source : SourceId
  imports : List ImportDecl

/-- A module of an overlay is looked up in the namespace of its package. -/
structure ModuleInfo where
  path : ModulePath
  overlay : Option ExternalPackageId

/-- The modules and the parts they are written in. A source is one part. -/
structure ModuleIndex where
  modules : List ModuleInfo
  parts : List ModulePart
  sources : (parts.map ModulePart.source).Nodup

inductive ModuleExportTarget where
  | source (module : ModuleId) (item : AstItemRef)
  | std (module : StdModuleId) (modulePath : ModulePath) (symbol : StdSymbolId)
  | external (package : Option ExternalPackageId) (module : ExternalModuleId)
    (modulePath : ModulePath) (symbol : ExternalSymbolId)

structure ModuleExport where
  name : String
  visibility : Visibility
  target : ModuleExportTarget

inductive ModuleOrigin where
  | projectSource (module : ModuleId)
  | dependencySourceOverlay (package : ExternalPackageId) (module : ModuleId)
  | stdSource (std : StdModuleId) (module : ModuleId)
  | externalMetadata (package : Option ExternalPackageId) (module : ExternalModuleId)
  | std (module : StdModuleId)

abbrev ModuleExportTable := Map String ModuleExport

structure ModuleRecord where
  path : ModulePath
  origin : ModuleOrigin
  exports : ModuleExportTable

/-- The namespaces of dependencies rename the paths that their own modules import. -/
structure ModuleCatalog where
  dependencyNamespaces : Map (ExternalPackageId × ModulePath) ModulePath
  modules : List ModuleRecord

def ModuleOrigin.sourceModule : ModuleOrigin → Option ModuleId
  | .projectSource module => some module
  | .dependencySourceOverlay _ module => some module
  | .stdSource _ module => some module
  | _ => none

def ModuleCatalog.sourceModuleKey (catalog : ModuleCatalog) (module : ModuleId) :
    Option ModuleKey :=
  catalog.modules.findIdx? fun record => record.origin.sourceModule == some module

def ModuleCatalog.moduleKeys (catalog : ModuleCatalog) (path : ModulePath) : List ModuleKey :=
  (List.range catalog.modules.length).filter fun key =>
    catalog.modules[key]?.any (·.path == path)

/-! What imports resolve to. -/

inductive ResolvedModuleTarget where
  | source (key : ModuleKey) (module : ModuleId)
  | std (key : ModuleKey) (module : StdModuleId) (path : ModulePath)
  | external (key : ModuleKey) (package : Option ExternalPackageId) (module : ExternalModuleId)
    (path : ModulePath)

def ResolvedModuleTarget.key : ResolvedModuleTarget → ModuleKey
  | .source key _ => key
  | .std key _ _ => key
  | .external key _ _ _ => key

inductive ImportTarget where
  | module (target : ResolvedModuleTarget)
  | sourceItem (moduleKey : ModuleKey) (module : ModuleId) (name : String) (item : AstItemRef)
  | stdItem (moduleKey : ModuleKey) (module : StdModuleId) (modulePath : ModulePath)
    (name : String) (symbol : StdSymbolId)
  | externalItem (moduleKey : ModuleKey) (package : Option ExternalPackageId)
    (module : ExternalModuleId) (modulePath : ModulePath) (name : String)
    (symbol : ExternalSymbolId)

def ImportTarget.catalogPath (catalog : ModuleCatalog) : ImportTarget → Option ModulePath
  | .module target => catalog.modules[target.key]?.map (·.path)
  | .sourceItem key _ name _ => catalog.modules[key]?.map (·.path ++ [name])
  | .stdItem key _ _ name _ => catalog.modules[key]?.map (·.path ++ [name])
  | .externalItem key _ _ _ name _ => catalog.modules[key]?.map (·.path ++ [name])

structure ResolvedImport where
  «from» : ModuleId
  fromPart : ModulePartId
  target : ImportTarget
  localName : String
  visibility : Visibility

/-- The exported names are the keys of the targets, so none is listed twice. -/
structure ResolvedWildcardImport where
  «from» : ModuleId
  fromPart : ModulePartId
  targetModule : ResolvedModuleTarget
  exportedNames : List String
  targets : Map String ImportTarget
  visibility : Visibility
  span : Span
  distinct : exportedNames.Nodup

end EtasFrontend.Resolution
