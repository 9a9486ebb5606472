import EtasFrontend.Resolution.Catalog

/-! The closure of export tables under the public imports of a project. -/
namespace EtasFrontend.Resolution
open Lib Hir

/-! Modules by their path. -/

inductive ModuleResolution where
  | resolved (target : ResolvedModuleTarget)
  | missing
  | ambiguous (targets : List ResolvedModuleTarget)

def ModuleOrigin.isOverlay : ModuleOrigin → Bool
  | .dependencySourceOverlay _ _ => true
  | _ => false

/-- The sources of a dependency hide its metadata. -/
def effectiveCatalogKeys (catalog : ModuleCatalog) (keys : List ModuleKey) : List ModuleKey :=
  let overlays := keys.filter fun key => catalog.modules[key]?.any (·.origin.isOverlay)
  if overlays.isEmpty then keys else overlays

def ModuleRecord.resolvedTarget (key : ModuleKey) (record : ModuleRecord) : ResolvedModuleTarget :=
  match record.origin with
  | .projectSource module => .source key module
  | .dependencySourceOverlay _ module => .source key module
  | .stdSource _ module => .source key module
  | .externalMetadata package module => .external key package module record.path
  | .std module => .std key module record.path

def resolveModule (catalog : ModuleCatalog) (package : Option ExternalPackageId)
    (path : ModulePath) : ModuleResolution :=
  let namespaced := package.bind fun package => catalog.dependencyNamespaces.get (package, path)
  let keys := effectiveCatalogKeys catalog (catalog.moduleKeys (namespaced.getD path))
  match keys.filterMap fun key => catalog.modules[key]?.map (ModuleRecord.resolvedTarget key) with
  | [] => .missing
  | [target] => .resolved target
  | targets => .ambiguous targets

def resolveModuleTarget (catalog : ModuleCatalog) (package : Option ExternalPackageId)
    (path : ModulePath) : Option ResolvedModuleTarget :=
  match resolveModule catalog package path with
  | .resolved target => some target
  | _ => none

/-- The longest proper prefix that names a module, and the rest. -/
def splitModuleMemberPath (catalog : ModuleCatalog) (package : Option ExternalPackageId)
    (path : ModulePath) : Option (ModulePath × String) :=
  (List.range' 1 (path.length - 1)).reverse.findSome? fun length =>
    match resolveModule catalog package (path.take length) with
    | .resolved _ => some (path.take length, ".".intercalate (path.drop length))
    | _ => none

def moduleExports (catalog : ModuleCatalog) (target : ResolvedModuleTarget) :
    Option ModuleExportTable :=
  catalog.modules[target.key]?.map (·.exports)

/-- A module sees its own private items. -/
def isImporter (importer : ModuleId) : ResolvedModuleTarget → Bool
  | .source _ module => module == importer
  | _ => false

def resolveExportedItem (catalog : ModuleCatalog) (target : ResolvedModuleTarget)
    (importer : ModuleId) (name : String) : Option ModuleExport :=
  match (moduleExports catalog target).bind (·.get name) with
  | none => none
  | some item =>
    if !isImporter importer target && item.visibility != .public then none else some item

def importTargetForExport (key : ModuleKey) (name : String) (item : ModuleExport) : ImportTarget :=
  match item.target with
  | .source module ref => .sourceItem key module name ref
  | .std module modulePath symbol => .stdItem key module modulePath name symbol
  | .external package module modulePath symbol =>
    .externalItem key package module modulePath name symbol

def moduleExportTargetForImport : ImportTarget → Option ModuleExportTarget
  | .module _ => none
  | .sourceItem _ module _ item => some (.source module item)
  | .stdItem _ module modulePath _ symbol => some (.std module modulePath symbol)
  | .externalItem _ package module modulePath _ symbol =>
    some (.external package module modulePath symbol)

inductive ImportResolution where
  | explicit (resolved : ResolvedImport)
  | wildcard (resolved : ResolvedWildcardImport)

/-- The part of a module that an import declaration stands in. -/
structure ImportSite where
  module : ModuleId
  part : ModulePartId
  package : Option ExternalPackageId

def resolveSingleImport (catalog : ModuleCatalog) (site : ImportSite) (visibility : Visibility)
    (path : ModulePath) (rename : Option String) : List ImportResolution :=
  match resolveModule catalog site.package path with
  | .resolved target =>
    let localName := rename.getD (path.getLast?.getD "")
    [.explicit ⟨site.module, site.part, .module target, localName, visibility⟩]
  | .ambiguous _ => []
  | .missing =>
    match splitModuleMemberPath catalog site.package path with
    | none => []
    | some (modulePath, member) =>
      match resolveModuleTarget catalog site.package modulePath with
      | none => []
      | some target =>
        match resolveExportedItem catalog target site.module member with
        | none => []
        | some item =>
          [.explicit ⟨site.module, site.part, importTargetForExport target.key member item,
            rename.getD member, visibility⟩]

def resolveGroupItem (catalog : ModuleCatalog) (site : ImportSite) (visibility : Visibility)
    (target : ResolvedModuleTarget) (item : ImportItem) : Option ImportResolution :=
  (resolveExportedItem catalog target site.module item.name).map fun found =>
    .explicit ⟨site.module, site.part, importTargetForExport target.key item.name found,
      item.rename.getD item.name, visibility⟩

/-- The exports of a module that a wildcard import of it sees. -/
def wildcardTargets (catalog : ModuleCatalog) (importer : ModuleId)
    (target : ResolvedModuleTarget) : Map String ImportTarget :=
  let items := ((moduleExports catalog target).getD ∅).toList.map Prod.snd
  let seen := items.filter fun item => item.visibility == .public || isImporter importer target
  Map.ofList (seen.map fun item => (item.name, importTargetForExport target.key item.name item))

def resolveWildcardImport (catalog : ModuleCatalog) (site : ImportSite) (visibility : Visibility)
    (target : ResolvedModuleTarget) (span : Span) : ResolvedWildcardImport where
  «from» := site.module
  fromPart := site.part
  targetModule := target
  exportedNames := (wildcardTargets catalog site.module target).keys
  targets := wildcardTargets catalog site.module target
  visibility := visibility
  span := span
  distinct := AList.keys_nodup _

def resolveImportTree (catalog : ModuleCatalog) (site : ImportSite) (decl : ImportDecl) :
    List ImportResolution :=
  match decl.tree with
  | .single path rename => resolveSingleImport catalog site decl.visibility path rename
  | .group path items =>
    match resolveModuleTarget catalog site.package path with
    | none => []
    | some target => items.filterMap (resolveGroupItem catalog site decl.visibility target)
  | .wildcard path span =>
    match resolveModuleTarget catalog site.package path with
    | none => []
    | some target => [.wildcard (resolveWildcardImport catalog site decl.visibility target span)]
  | .error => []

/-- The public imports of a project, each with the part that it stands in. -/
def publicImports (modules : ModuleIndex) : List (ImportSite × ImportDecl) :=
  modules.parts.zipIdx.flatMap fun part =>
    let package := modules.modules[part.1.module]?.bind (·.overlay)
    (part.1.imports.filter (·.visibility == .public)).map fun decl =>
      (⟨part.1.module, part.2, package⟩, decl)

def ImportResolution.explicit? : ImportResolution → Option ResolvedImport
  | .explicit resolved => some resolved
  | .wildcard _ => none

def ImportResolution.wildcard? : ImportResolution → Option ResolvedWildcardImport
  | .explicit _ => none
  | .wildcard resolved => some resolved

def resolvePublicImportsForCatalog (modules : ModuleIndex) (catalog : ModuleCatalog) :
    List ResolvedImport × List ResolvedWildcardImport :=
  let resolutions := (publicImports modules).flatMap fun found =>
    resolveImportTree catalog found.1 found.2
  (resolutions.filterMap ImportResolution.explicit?,
    resolutions.filterMap ImportResolution.wildcard?)

def explicitExport (catalog : ModuleCatalog) (resolved : ResolvedImport) :
    Option (ModuleKey × String × ModuleExport) :=
  if resolved.visibility ≠ .public then none
  else
    (catalog.sourceModuleKey resolved.from).bind fun fromKey =>
      (moduleExportTargetForImport resolved.target).map fun target =>
        (fromKey, resolved.localName, ⟨resolved.localName, .public, target⟩)

def wildcardExports (catalog : ModuleCatalog) (resolved : ResolvedWildcardImport) :
    List (ModuleKey × String × ModuleExport) :=
  if resolved.visibility ≠ .public then []
  else
    match catalog.sourceModuleKey resolved.from, catalog.modules[resolved.targetModule.key]? with
    | some fromKey, some record =>
      (record.exports.toList.filter (resolved.exportedNames.contains ·.1)).map fun entry =>
        (fromKey, entry.1, ⟨entry.1, .public, entry.2.target⟩)
    | _, _ => []

/-- An export that is there already stays. -/
def insertVacant (state : ModuleCatalog × Bool) (entry : ModuleKey × String × ModuleExport) :
    ModuleCatalog × Bool :=
  match state.1.modules[entry.1]? with
  | none => state
  | some record =>
    match record.exports.get entry.2.1 with
    | some _ => state
    | none =>
      let record := { record with exports := record.exports.insert entry.2.1 entry.2.2 }
      ({ state.1 with modules := state.1.modules.set entry.1 record }, true)

def applyReExportsToCatalog (catalog : ModuleCatalog) (imports : List ResolvedImport)
    (wildcards : List ResolvedWildcardImport) : ModuleCatalog × Bool :=
  let explicit := imports.filterMap (explicitExport catalog)
  let wildcard := wildcards.flatMap (wildcardExports catalog)
  (explicit ++ wildcard).foldl insertVacant (catalog, false)

def closureRounds (modules : ModuleIndex) : ℕ → ModuleCatalog → ModuleCatalog
  | 0, catalog => catalog
  | rounds + 1, catalog =>
    let (imports, wildcards) := resolvePublicImportsForCatalog modules catalog
    let (catalog, changed) := applyReExportsToCatalog catalog imports wildcards
    if changed then closureRounds modules rounds catalog else catalog

def materializeCatalogReExportClosure (modules : ModuleIndex) (catalog : ModuleCatalog) :
    ModuleCatalog :=
  closureRounds modules (modules.parts.length + 1) catalog

end EtasFrontend.Resolution
