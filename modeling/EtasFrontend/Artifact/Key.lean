import EtasFrontend.Lib.Map
import Mathlib.Algebra.GroupWithZero.Nat

/-! Keys of frontend artifacts, their text in the cache, and where each kind is kept. -/
namespace EtasFrontend.Artifact

abbrev ArtifactFingerprint := List UInt8

structure ArtifactKey where
  cacheNamespace : String
  kind : String
  unit : String
  deriving DecidableEq

def frontendCacheNamespace : String := "frontend"

inductive FrontendArtifactKind where
  | sourceSet | parsedSource | parsedSourceSet | artifactManifest | sourceFingerprintSummary
  | moduleImportExportSummary | artifactDependencySummary | artifactReuseStats | moduleIndex
  | unitTree | importGraph | moduleTopoOrder | affectedModuleSet | hirModule | hirBody
  | hirProgram | resolvedImports | resolvedPaths | signatureFacts | typeConstraintEnvironment
  | topLevelLetFacts | typeFacts | effectPipelineArtifacts | effectFacts | bodyArtifactReuseIndex
  | diagnostics | projectEntry | reachabilityFacts | checkedProject
  deriving DecidableEq

namespace FrontendArtifactKind

def key : FrontendArtifactKind → String
  | sourceSet => "source_set"
  | parsedSource => "parsed_source"
  | parsedSourceSet => "parsed_source_set"
  | artifactManifest => "artifact_manifest"
  | sourceFingerprintSummary => "source_fingerprint_summary"
  | moduleImportExportSummary => "module_import_export_summary"
  | artifactDependencySummary => "artifact_dependency_summary"
  | artifactReuseStats => "artifact_reuse_stats"
  | moduleIndex => "module_index"
  | unitTree => "unit_tree"
  | importGraph => "import_graph"
  | moduleTopoOrder => "module_topo_order"
  | affectedModuleSet => "affected_module_set"
  | hirModule => "hir_module"
  | hirBody => "hir_body"
  | hirProgram => "hir_program"
  | resolvedImports => "resolved_imports"
  | resolvedPaths => "resolved_paths"
  | signatureFacts => "signature_facts"
  | typeConstraintEnvironment => "type_constraint_environment"
  | topLevelLetFacts => "top_level_let_facts"
  | typeFacts => "type_facts"
  | effectPipelineArtifacts => "effect_pipeline_artifacts"
  | effectFacts => "effect_facts"
  | bodyArtifactReuseIndex => "body_artifact_reuse_index"
  | diagnostics => "diagnostics"
  | projectEntry => "project_entry"
  | reachabilityFacts => "reachability_facts"
  | checkedProject => "checked_project"

def all : List FrontendArtifactKind :=
  [sourceSet, parsedSource, parsedSourceSet, artifactManifest, sourceFingerprintSummary,
    moduleImportExportSummary, artifactDependencySummary, artifactReuseStats, moduleIndex,
    unitTree, importGraph, moduleTopoOrder, affectedModuleSet, hirModule, hirBody, hirProgram,
    resolvedImports, resolvedPaths, signatureFacts, typeConstraintEnvironment, topLevelLetFacts,
    typeFacts, effectPipelineArtifacts, effectFacts, bodyArtifactReuseIndex, diagnostics,
    projectEntry, reachabilityFacts, checkedProject]

def fromKey (key : String) : Option FrontendArtifactKind := all.find? fun kind => kind.key == key

end FrontendArtifactKind

structure UnitKindKey where
  kindNamespace : String
  name : String
  deriving DecidableEq

def projectUnitKind : UnitKindKey := ⟨"frontend", "project"⟩
def sourceFileUnitKind : UnitKindKey := ⟨"frontend", "source_file"⟩
def moduleUnitKind : UnitKindKey := ⟨"frontend", "module"⟩
def modulePartUnitKind : UnitKindKey := ⟨"frontend", "module_part"⟩
def itemUnitKind : UnitKindKey := ⟨"frontend", "item"⟩
def bodyUnitKind : UnitKindKey := ⟨"frontend", "body"⟩
def blockUnitKind : UnitKindKey := ⟨"frontend", "block"⟩
def expressionUnitKind : UnitKindKey := ⟨"frontend", "expression"⟩

structure UnitKey where
  kind : UnitKindKey
  id : ℕ
  deriving DecidableEq

inductive FrontendUnitKey where
  | project
  | source (id : ℕ)
  | moduleUnit (id : ℕ)
  | modulePart (id : ℕ)
  | item (id : ℕ)
  | unit (key : UnitKey)
  deriving DecidableEq

structure FrontendArtifactKey where
  kind : FrontendArtifactKind
  unit : FrontendUnitKey
  deriving DecidableEq

/-- The decimal numbers of an unsigned type: an optional plus sign and at least one digit. -/
def parseUnsigned (bits : ℕ) (text : List Char) : Option ℕ :=
  let digits := match text with
    | '+' :: rest => rest
    | text => text
  if digits.isEmpty || !digits.all Char.isDigit then none
  else
    let value := digits.foldl (fun value digit => value * 10 + (digit.toNat - '0'.toNat)) 0
    if value < 2 ^ bits then some value else none

def frontendUnitKind (kindNamespace name : String) : Option UnitKindKey :=
  [projectUnitKind, sourceFileUnitKind, moduleUnitKind, modulePartUnitKind, itemUnitKind,
    bodyUnitKind, blockUnitKind, expressionUnitKind].find? fun kind =>
      kind.kindNamespace == kindNamespace && kind.name == name

namespace FrontendUnitKey

def cacheUnit : FrontendUnitKey → String
  | project => "project"
  | source id => "source:" ++ toString id
  | moduleUnit id => "module:" ++ toString id
  | modulePart id => "module_part:" ++ toString id
  | item id => "item:" ++ toString id
  | unit key =>
    "unit:" ++ key.kind.kindNamespace ++ ":" ++ key.kind.name ++ ":" ++ toString key.id

def fromCacheUnit (text : String) : Option FrontendUnitKey :=
  let chars := text.toList
  if text == "project" then some project
  else if let some rest := "source:".toList.isPrefixOf? chars then
    (parseUnsigned 32 rest).map source
  else if let some rest := "module:".toList.isPrefixOf? chars then
    (parseUnsigned 32 rest).map moduleUnit
  else if let some rest := "module_part:".toList.isPrefixOf? chars then
    (parseUnsigned 32 rest).map modulePart
  else if let some rest := "item:".toList.isPrefixOf? chars then
    (parseUnsigned 32 rest).map item
  else do
    let rest ← "unit:".toList.isPrefixOf? chars
    match rest.splitOn ':' with
    | [kindNamespace, name, id] =>
      let id ← parseUnsigned 64 id
      let kind ← frontendUnitKind (String.ofList kindNamespace) (String.ofList name)
      some (unit ⟨kind, id⟩)
    | _ => none

end FrontendUnitKey

namespace FrontendArtifactKey

def toCacheKey (key : FrontendArtifactKey) : ArtifactKey :=
  ⟨frontendCacheNamespace, key.kind.key, key.unit.cacheUnit⟩

def fromCacheKey (key : ArtifactKey) : Option FrontendArtifactKey :=
  if key.cacheNamespace ≠ frontendCacheNamespace then none
  else do
    let kind ← FrontendArtifactKind.fromKey key.kind
    let unit ← FrontendUnitKey.fromCacheUnit key.unit
    some ⟨kind, unit⟩

theorem cacheNamespace_of_fromCacheKey {key : ArtifactKey} {frontend : FrontendArtifactKey}
    (h : fromCacheKey key = some frontend) : key.cacheNamespace = frontendCacheNamespace := by
  unfold fromCacheKey at h
  split_ifs at h with hn
  exact not_not.mp hn

end FrontendArtifactKey

/-! Where an artifact is kept. -/

inductive PersistenceClass where
  | memoryOnly
  | diskMetadataOnly
  | diskPayload (maxPayloadBytes : ℕ)
  deriving DecidableEq

inductive DiskCacheAccess where
  | disabled | readOnly | writeOnly | readWrite

def DiskCacheAccess.canRead : DiskCacheAccess → Bool
  | readOnly | readWrite => true
  | disabled | writeOnly => false

def DiskCacheAccess.canWrite : DiskCacheAccess → Bool
  | writeOnly | readWrite => true
  | disabled | readOnly => false

def defaultBodyFactMaxPayloadBytes : ℕ := 8 * 1024 * 1024
def defaultItemSignatureMaxPayloadBytes : ℕ := 512 * 1024
def defaultManifestMaxPayloadBytes : ℕ := 2 * 1024 * 1024
def defaultReuseIndexMaxPayloadBytes : ℕ := 4 * 1024 * 1024

def persistenceClass (key : FrontendArtifactKey) : PersistenceClass :=
  match key.kind, key.unit with
  | .artifactManifest, .project => .diskPayload defaultManifestMaxPayloadBytes
  | .bodyArtifactReuseIndex, .project => .diskPayload defaultReuseIndexMaxPayloadBytes
  | .sourceFingerprintSummary, .project | .moduleImportExportSummary, .project
  | .artifactDependencySummary, .project | .artifactReuseStats, .project => .diskMetadataOnly
  | .signatureFacts, .item _ => .diskPayload defaultItemSignatureMaxPayloadBytes
  | .typeFacts, .unit unit | .effectFacts, .unit unit =>
    if unit.kind = bodyUnitKind then .diskPayload defaultBodyFactMaxPayloadBytes else .memoryOnly
  | _, _ => .memoryOnly

def diskClass (key : ArtifactKey) : Option PersistenceClass := do
  let frontend ← FrontendArtifactKey.fromCacheKey key
  if persistenceClass frontend ≠ .memoryOnly then some (persistenceClass frontend) else none

def diskPayloadClass (key : ArtifactKey) : Option PersistenceClass := do
  match ← diskClass key with
  | .diskPayload maxPayloadBytes => some (.diskPayload maxPayloadBytes)
  | _ => none

end EtasFrontend.Artifact
