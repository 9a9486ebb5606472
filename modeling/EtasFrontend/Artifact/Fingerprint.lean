import EtasFrontend.Artifact.KeyCodec
import EtasFrontend.Lib.Delimited

/-! Fingerprints: the parts that are hashed for a reuse index and for a manifest. The hash function
and the text of a cache key are parameters. -/
namespace EtasFrontend.Artifact
open Lib

/-! Parts. -/

/-- The eight bytes of the low 64 bits, the least significant first. -/
def u64LeBytes (n : ℕ) : List UInt8 := (List.range 8).map fun i => UInt8.ofNat (n / 256 ^ i)

def utf8Bytes (text : String) : List UInt8 := text.toByteArray.data.toList

/-- What the hasher is fed with. -/
def hashedBytes (parts : List (List UInt8)) : List UInt8 :=
  parts.flatMap fun part => u64LeBytes part.length ++ part

def fingerprintBytes (hash : List UInt8 → ArtifactFingerprint) (parts : List (List UInt8)) :
    ArtifactFingerprint :=
  hash (hashedBytes parts)

def fingerprintText (hash : List UInt8 → ArtifactFingerprint) (parts : List String) :
    ArtifactFingerprint :=
  fingerprintBytes hash (parts.map utf8Bytes)

def debugBytes (bytes : ArtifactFingerprint) : String :=
  "[" ++ ", ".intercalate (bytes.map fun byte => toString byte.toNat) ++ "]"

def debugOption {α : Type} (debug : α → String) : Option α → String
  | none => "None"
  | some a => "Some(" ++ debug a ++ ")"

def BodyArtifactReuseKind.debug : BodyArtifactReuseKind → String
  | typeFacts => "TypeFacts"
  | effectFacts => "EffectFacts"

def FrontendArtifactKind.debug : FrontendArtifactKind → String
  | sourceSet => "SourceSet"
  | parsedSource => "ParsedSource"
  | parsedSourceSet => "ParsedSourceSet"
  | artifactManifest => "ArtifactManifest"
  | sourceFingerprintSummary => "SourceFingerprintSummary"
  | moduleImportExportSummary => "ModuleImportExportSummary"
  | artifactDependencySummary => "ArtifactDependencySummary"
  | artifactReuseStats => "ArtifactReuseStats"
  | moduleIndex => "ModuleIndex"
  | unitTree => "UnitTree"
  | importGraph => "ImportGraph"
  | moduleTopoOrder => "ModuleTopoOrder"
  | affectedModuleSet => "AffectedModuleSet"
  | hirModule => "HirModule"
  | hirBody => "HirBody"
  | hirProgram => "HirProgram"
  | resolvedImports => "ResolvedImports"
  | resolvedPaths => "ResolvedPaths"
  | signatureFacts => "SignatureFacts"
  | typeConstraintEnvironment => "TypeConstraintEnvironment"
  | topLevelLetFacts => "TopLevelLetFacts"
  | typeFacts => "TypeFacts"
  | effectPipelineArtifacts => "EffectPipelineArtifacts"
  | effectFacts => "EffectFacts"
  | bodyArtifactReuseIndex => "BodyArtifactReuseIndex"
  | diagnostics => "Diagnostics"
  | projectEntry => "ProjectEntry"
  | reachabilityFacts => "ReachabilityFacts"
  | checkedProject => "CheckedProject"

def PersistedFrontendArtifactKey.fingerprintPart (key : PersistedFrontendArtifactKey) : String :=
  match key.unit with
  | .project => "project"
  | .source id => "source:" ++ toString id
  | .moduleUnit id => "module:" ++ toString id
  | .modulePart id => "module_part:" ++ toString id
  | .item id => "item:" ++ toString id
  | .unit kindNamespace name id =>
    "unit:" ++ kindNamespace ++ ":" ++ name ++ ":" ++ toString id

def PersistedFrontendArtifactDependency.fingerprintParts
    (dependency : PersistedFrontendArtifactDependency) : List String :=
  ["dependency_key:" ++ dependency.key.fingerprintPart,
    "dependency_kind:" ++ dependency.key.kind.debug,
    "dependency_fingerprint:" ++ debugOption debugBytes dependency.fingerprint]

/-- The parts of a record before its dependencies. -/
def BodyArtifactReuseIndexRecord.ownParts (record : BodyArtifactReuseIndexRecord) : List String :=
  ["kind:" ++ record.kind.debug,
    "unit:" ++ toString record.unit,
    "revision:" ++ toString record.revision,
    "fingerprint:" ++ debugBytes record.fingerprint,
    "identity_source:" ++ toString record.identity.source,
    "identity_item_index:" ++ toString record.identity.itemIndex,
    "identity_item_kind:" ++ record.identity.itemKind,
    "identity_impl_member:" ++ debugOption toString record.identity.implMember,
    record.identity.text]

def BodyArtifactReuseIndexRecord.fingerprintParts (record : BodyArtifactReuseIndexRecord) :
    List String :=
  record.ownParts ++ record.dependencies.flatMap (·.fingerprintParts)

namespace BodyArtifactReuseIndex

def fingerprintParts (index : BodyArtifactReuseIndex) : List String :=
  "body_artifact_reuse_index:v2" :: index.records.flatMap (·.fingerprintParts)

def fingerprint (hash : List UInt8 → ArtifactFingerprint) (index : BodyArtifactReuseIndex) :
    ArtifactFingerprint :=
  fingerprintText hash index.fingerprintParts

end BodyArtifactReuseIndex

variable (display : ArtifactKey → String)

def FrontendArtifactDependency.fingerprintParts (dependency : FrontendArtifactDependency) :
    List String :=
  ["dependency:" ++ display dependency.key.toCacheKey,
    "dependency_fingerprint:" ++ debugOption debugBytes dependency.fingerprint]

def FrontendArtifactRecord.fingerprintParts (record : FrontendArtifactRecord) : List String :=
  ["key:" ++ display record.key.toCacheKey,
    "revision:" ++ toString record.revision,
    "fingerprint:" ++ debugBytes record.fingerprint] ++
  (record.dependencies.flatMap (·.fingerprintParts display) ++
    record.diagnostics.map fun source => "diagnostic_source:" ++ toString source)

/-- The records in the order of the texts of their keys. -/
def FrontendArtifactManifest.sorted (manifest : FrontendArtifactManifest) :
    List FrontendArtifactRecord :=
  manifest.records.insertionSort fun a b =>
    display a.key.toCacheKey ≤ display b.key.toCacheKey

def FrontendArtifactManifest.fingerprintParts (manifest : FrontendArtifactManifest) : List String :=
  "frontend_artifact_manifest:v1" ::
    (manifest.sorted display).flatMap (·.fingerprintParts display)

def FrontendArtifactManifest.fingerprint (hash : List UInt8 → ArtifactFingerprint)
    (manifest : FrontendArtifactManifest) : ArtifactFingerprint :=
  fingerprintText hash (manifest.fingerprintParts display)

end EtasFrontend.Artifact
